/-
# Focus and overlays

The overlay stack and the focus of `TuiBase` (`packages/tui/src/tui.ts`). An
entry of the stack is an object that its handle keeps after the overlay is
removed, so the entries ever made are kept in a list and the stack holds their
indices. Whether an overlay is visible on the terminal and whether a component
is mounted is up to the terminal and the components, and is given to each call.

Rendering, the hardware cursor and input that a listener or the terminal
protocol consumes do not touch the focus and are left out.
-/
import Mathlib.Logic.Function.Basic
import EasyPi.Lib.Runs

namespace EasyPi.Tui

/-- `OverlayStackEntry`. -/
structure OverlayEntry (κ : Type) where
  component : κ
  nonCapturing : Bool
  preFocus : Option κ
  hidden : Bool
  focusOrder : ℕ

/-- `OverlayBlockedFocusResume`. -/
inductive Resume (κ : Type) where
  | restoreOverlay
  | focusTarget (target : Option κ)

/-- `OverlayFocusRestoreState`. -/
inductive FocusRestore (κ : Type) where
  | inactive
  | eligible (overlay : ℕ)
  | blocked (overlay : ℕ) (blockedBy : κ) (resume : Resume κ)

def FocusRestore.overlay? {κ : Type} : FocusRestore κ → Option ℕ
  | inactive => none
  | eligible overlay | blocked overlay _ _ => some overlay

/-- What focus returns to after a blocked restore. -/
def FocusRestore.target? {κ : Type} : FocusRestore κ → Option κ
  | blocked _ _ (.focusTarget target) => target
  | _ => none

def FocusRestore.blockedBy? {κ : Type} : FocusRestore κ → Option κ
  | blocked _ blockedBy _ => some blockedBy
  | _ => none

/-- The fields of `TuiBase` the focus depends on, and the `focused` field of every component. -/
structure Focus (κ : Type) where
  entries : List (OverlayEntry κ) := []
  overlayStack : List ℕ := []
  focusedComponent : Option κ := none
  overlayFocusRestore : FocusRestore κ := .inactive
  focusOrderCounter : ℕ := 0
  focused : κ → Bool := fun _ => false

/-- What a call sees of the terminal and the components: `options.visible` of an overlay
and `isComponentMounted`. -/
structure Surroundings (κ : Type) where
  visible : ℕ → Bool
  mounted : κ → Bool

variable {κ : Type} [DecidableEq κ] (focusable : κ → Bool)

namespace Focus

variable (s : Focus κ)

def componentOf (i : ℕ) : Option κ := s.entries[i]?.map (·.component)

variable (env : Surroundings κ)

def isOverlayVisible (i : ℕ) : Bool :=
  s.entries[i]?.any fun entry => !entry.hidden && env.visible i

/-- The overlay of the stack with a component. -/
def findOverlay (component : Option κ) : Option ℕ :=
  s.overlayStack.find? fun i => component.isSome && s.componentOf i = component

/-- The visible overlay of the stack with a component. -/
def findVisibleOverlay (component : Option κ) : Option ℕ :=
  s.overlayStack.find? fun i =>
    component.isSome && s.componentOf i = component && s.isOverlayVisible env i

def getVisibleOverlayFocusRestore : FocusRestore κ :=
  match s.overlayFocusRestore.overlay? with
  | none => .inactive
  | some overlay =>
    if overlay ∈ s.overlayStack ∧ s.isOverlayVisible env overlay then s.overlayFocusRestore
    else .inactive

/-- The loop of `isOverlayFocusAncestor`. Each turn but the last visits the component of another
overlay of the stack. -/
def ancestorLoop (s : Focus κ) (component : κ) : ℕ → List κ → Option κ → Bool
  | 0, _, _ => false
  | _, _, none => false
  | fuel + 1, visited, some current =>
    if current ∈ visited then false
    else if current = component then true
    else ancestorLoop s component fuel (current :: visited)
      ((s.findOverlay (some current)).bind fun i => s.entries[i]?.bind (·.preFocus))

def isOverlayFocusAncestor (i : ℕ) (component : κ) : Bool :=
  s.ancestorLoop component (s.overlayStack.length + 1) [] (s.entries[i]?.bind (·.preFocus))

/-- `resolveBlockedOverlayFocusResume`: where focus goes, and the restore state. -/
def resolveBlocked (overlay : ℕ) : Resume κ → Option κ × FocusRestore κ
  | .restoreOverlay => (s.componentOf overlay, s.overlayFocusRestore)
  | .focusTarget target => (target, .inactive)

/-- The first part of `setFocusInternal`: where focus goes, and the restore state. -/
def redirectFocus (component : Option κ) (clear : Bool) :
    Option κ × FocusRestore κ :=
  match component, s.getVisibleOverlayFocusRestore env with
  | some next, restoreState =>
    -- the overlay that has the focus is moved out of, but not back to where it came from
    let leaves := fun overlay =>
      s.findVisibleOverlay env s.focusedComponent = some overlay &&
        !s.isOverlayFocusAncestor overlay next
    if (s.findOverlay (some next)).isSome then (some next, s.overlayFocusRestore)
    else
      match restoreState with
      | .blocked overlay blockedBy resume =>
        if s.focusedComponent = some blockedBy then
          match resume with
          | .focusTarget _ => s.resolveBlocked overlay resume
          | .restoreOverlay =>
            if env.mounted blockedBy then (some next, .blocked overlay next resume)
            else s.resolveBlocked overlay resume
        else if leaves overlay then (some next, .blocked overlay next .restoreOverlay)
        else (some next, s.overlayFocusRestore)
      | .eligible overlay =>
        if leaves overlay then (some next, .blocked overlay next .restoreOverlay)
        else (some next, s.overlayFocusRestore)
      | .inactive => (some next, s.overlayFocusRestore)
  | none, .blocked overlay blockedBy resume =>
    if s.focusedComponent = some blockedBy then s.resolveBlocked overlay resume
    else (none, if clear then .inactive else s.overlayFocusRestore)
  | none, _ => (none, if clear then .inactive else s.overlayFocusRestore)

/-- `component.focused = value` for a focusable component. -/
def setFocused (focused : κ → Bool) (component : Option κ) (value : Bool) : κ → Bool :=
  match component with
  | some c => if focusable c then Function.update focused c value else focused
  | none => focused

def setFocusInternal (component : Option κ) (clear : Bool) : Focus κ :=
  let (nextFocus, restore) := s.redirectFocus env component clear
  let restore := match s.findVisibleOverlay env nextFocus with
    | some overlay => .eligible overlay
    | none => restore
  { s with
    focusedComponent := nextFocus
    overlayFocusRestore := restore
    focused := setFocused focusable (setFocused focusable s.focused s.focusedComponent false)
      nextFocus true }

def setFocus (component : Option κ) : Focus κ :=
  s.setFocusInternal focusable env component true

def clearOverlayFocusRestoreFor (i : ℕ) : Focus κ :=
  if s.overlayFocusRestore.overlay? = some i then { s with overlayFocusRestore := .inactive } else s

def retargetOverlayPreFocus (removed : ℕ) : Focus κ :=
  match s.entries[removed]? with
  | none => s
  | some gone =>
    { s with entries := s.entries.mapIdx fun i entry =>
        if i ∈ s.overlayStack ∧ i ≠ removed ∧ entry.preFocus = some gone.component then
          { entry with preFocus := gone.preFocus }
        else entry }

/-- The frontmost of the overlays found so far and the next one. -/
def frontmost (topmost : Option ℕ) (i : ℕ) : Option ℕ :=
  match s.entries[i]? with
  | none => topmost
  | some entry =>
    if entry.nonCapturing ∨ s.isOverlayVisible env i = false then topmost
    else
      match topmost.bind (s.entries[·]?) with
      | none => some i
      | some best => if best.focusOrder < entry.focusOrder then some i else topmost

def getTopmostVisibleOverlay : Option ℕ :=
  s.overlayStack.foldl (s.frontmost env) none

/-- The component of the topmost visible overlay, or a component to fall back to. -/
def topmostOr (fallback : Option κ) : Option κ :=
  ((s.getTopmostVisibleOverlay env).bind s.componentOf).or fallback

/-- `showOverlay`. The handle is the index of the new entry. -/
def showOverlay (component : κ) (nonCapturing : Bool) : Focus κ :=
  let entry : OverlayEntry κ :=
    { component, nonCapturing, preFocus := s.focusedComponent, hidden := false
      focusOrder := s.focusOrderCounter + 1 }
  let s := { s with
    entries := s.entries ++ [entry]
    overlayStack := s.overlayStack ++ [s.entries.length]
    focusOrderCounter := s.focusOrderCounter + 1 }
  if !nonCapturing && s.isOverlayVisible env (s.entries.length - 1) then
    s.setFocus focusable env (some component)
  else s

/-- An overlay leaves the stack, and focus leaves the overlay. -/
def removeOverlay (i : ℕ) (entry : OverlayEntry κ) : Focus κ :=
  let s := (s.clearOverlayFocusRestoreFor i).retargetOverlayPreFocus i
  let s := { s with overlayStack := s.overlayStack.erase i }
  if s.focusedComponent = some entry.component then
    s.setFocus focusable env (s.topmostOr env entry.preFocus)
  else s

/-- `hide` of a handle. -/
def hide (i : ℕ) : Focus κ :=
  match s.entries[i]? with
  | none => s
  | some entry => if i ∈ s.overlayStack then s.removeOverlay focusable env i entry else s

def hideOverlay : Focus κ :=
  match s.overlayStack.getLast? with
  | none => s
  | some i => s.hide focusable env i

/-- `setHidden` of a handle. -/
def setHidden (i : ℕ) (hidden : Bool) : Focus κ :=
  match s.entries[i]? with
  | none => s
  | some entry =>
    if entry.hidden = hidden then s
    else
      let s := { s with entries := s.entries.set i { entry with hidden } }
      if hidden then
        let s := s.clearOverlayFocusRestoreFor i
        if s.focusedComponent = some entry.component then
          s.setFocus focusable env (s.topmostOr env entry.preFocus)
        else s
      else if !entry.nonCapturing && s.isOverlayVisible env i then
        let s := { s with
          entries := s.entries.set i { entry with hidden, focusOrder := s.focusOrderCounter + 1 }
          focusOrderCounter := s.focusOrderCounter + 1 }
        s.setFocus focusable env (some entry.component)
      else s

/-- `focus` of a handle. -/
def focusOverlay (i : ℕ) : Focus κ :=
  match s.entries[i]? with
  | none => s
  | some entry =>
    if i ∈ s.overlayStack ∧ s.isOverlayVisible env i then
      let s := { s with
        entries := s.entries.set i { entry with focusOrder := s.focusOrderCounter + 1 }
        focusOrderCounter := s.focusOrderCounter + 1 }
      s.setFocus focusable env (some entry.component)
    else s

/-- The restore state is blocked for this overlay by the component that has the focus. -/
def blockedFor (i : ℕ) : Option κ :=
  match s.overlayFocusRestore with
  | .blocked overlay blockedBy _ =>
    if overlay = i ∧ s.focusedComponent = some blockedBy then some blockedBy else none
  | _ => none

/-- `unfocus` of a handle, with the target of its options. -/
def unfocus (i : ℕ) (options : Option (Option κ)) : Focus κ :=
  match s.entries[i]? with
  | none => s
  | some entry =>
    let isFocused := s.focusedComponent = some entry.component
    if ¬ isFocused ∧ s.overlayFocusRestore.overlay? ≠ some i then s
    else
      match s.blockedFor i, options with
      | some blockedBy, some target =>
        { s with overlayFocusRestore := .blocked i blockedBy (.focusTarget target) }
      | some _, none => { s with overlayFocusRestore := .inactive }
      | none, some target =>
        (s.clearOverlayFocusRestoreFor i).setFocus focusable env target
      | none, none =>
        let s := s.clearOverlayFocusRestoreFor i
        if isFocused then
          let others := (s.getTopmostVisibleOverlay env).filter (· ≠ i)
          s.setFocus focusable env ((others.bind s.componentOf).or entry.preFocus)
        else s

/-- The first part of `handleTerminalInput`: focus leaves an overlay that is not visible. -/
def leaveInvisible : Focus κ :=
  match s.findOverlay s.focusedComponent with
  | none => s
  | some i =>
    if s.isOverlayVisible env i then s
    else
      match s.getTopmostVisibleOverlay env with
      | some top => s.setFocus focusable env (s.componentOf top)
      | none => s.setFocusInternal focusable env (s.entries[i]?.bind (·.preFocus)) false

/-- The second part of `handleTerminalInput`: focus returns to where it is due. -/
def restorePending : Focus κ :=
  if (s.findOverlay s.focusedComponent).isSome then s
  else
    match s.getVisibleOverlayFocusRestore env with
    | .inactive => s
    | .eligible overlay => s.setFocus focusable env (s.componentOf overlay)
    | .blocked overlay blockedBy resume =>
      if s.focusedComponent = some blockedBy then s
      else
        match resume with
        | .restoreOverlay => s.setFocus focusable env (s.componentOf overlay)
        | .focusTarget target =>
          { s with overlayFocusRestore := .inactive }.setFocus focusable env target

/-- `handleTerminalInput`. The component that has the focus afterwards receives the input. -/
def handleTerminalInput : Focus κ :=
  (s.leaveInvisible focusable env).restorePending focusable env

end Focus

/-- The calls of the interface; overlays by their handles. -/
inductive FocusOp (κ : Type) where
  | showOverlay (env : Surroundings κ) (component : κ) (nonCapturing : Bool)
  | hide (env : Surroundings κ) (handle : ℕ)
  | setHidden (env : Surroundings κ) (handle : ℕ) (hidden : Bool)
  | focus (env : Surroundings κ) (handle : ℕ)
  | unfocus (env : Surroundings κ) (handle : ℕ) (options : Option (Option κ))
  | hideOverlay (env : Surroundings κ)
  | setFocus (env : Surroundings κ) (component : Option κ)
  | input (env : Surroundings κ)

def Focus.step (s : Focus κ) : FocusOp κ → Focus κ
  | .showOverlay env component nonCapturing => s.showOverlay focusable env component nonCapturing
  | .hide env handle => s.hide focusable env handle
  | .setHidden env handle hidden => s.setHidden focusable env handle hidden
  | .focus env handle => s.focusOverlay focusable env handle
  | .unfocus env handle options => s.unfocus focusable env handle options
  | .hideOverlay env => s.hideOverlay focusable env
  | .setFocus env component => s.setFocus focusable env component
  | .input env => s.handleTerminalInput focusable env
end EasyPi.Tui
