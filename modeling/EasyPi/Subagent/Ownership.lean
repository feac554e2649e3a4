/-
# Where the writers of a run may write

The paths that the writers of a compiled request own, resolved against the root of the workspace: whether they
stay below it, outside of `.git`, and apart from each other. The checks compare texts; they decide this for
every path that is written as the names on it, and for no other.
-/
import EasyPi.Lib.Segments
import EasyPi.Subagent.DagRequest

namespace EasyPi.Subagent

open List
namespace DagRequest

def segments (path : String) : List (List Char) := path.toList.splitOn '/'

/-- An empty segment or `.`. -/
def stays (segment : List Char) : Bool := segment = [] || segment = ['.']

/-- `..`. -/
def goesUp (segment : List Char) : Bool := segment = ['.', '.']

/-- The name of the directory of the repository. -/
def gitName : List Char := ['.', 'g', 'i', 't']

def resolve (root : List (List Char)) (path : String) : List (List Char) := walk stays goesUp root (segments path)

/-- A path leads strictly below the root, and neither to `.git` nor into it. -/
structure Inside (root : List (List Char)) (path : String) : Prop where
  below : root <+: resolve root path
  strict : resolve root path ≠ root
  git : ¬ root ++ [gitName] <+: resolve root path

/-- Neither path leads to the other or above it. -/
def Apart (root : List (List Char)) (path other : String) : Prop :=
  ¬ resolve root path <+: resolve root other ∧ ¬ resolve root other <+: resolve root path

/-- Every path is inside of the root, and apart from the others. -/
structure Confined (root : List (List Char)) (paths : List String) : Prop where
  inside : ∀ path ∈ paths, Inside root path
  apart : paths.Pairwise (Apart root)

/-! ### Spellings -/

/-- A path is written as the names on it: no segment stays or goes up. -/
def Plain (path : String) : Prop := ∀ segment ∈ segments path, stays segment = false ∧ goesUp segment = false

instance (path : String) : Decidable (Plain path) := inferInstanceAs (Decidable (∀ segment ∈ segments path, _))

/-- The segments of a path that are not empty or `.`. -/
def namesOf (path : String) : List (List Char) := (segments path).filter (! stays ·)

/-- The names on a path; a `..` at its end takes the name before it away. -/
def plainNames (path : String) : List (List Char) :=
  if (namesOf path).getLast? = some ['.', '.'] then (namesOf path).dropLast.dropLast else namesOf path

/-- The path with the same names that is plain. -/
def plainSpelling (path : String) : String := .ofList (['/'].intercalate (plainNames path))

/-- Every path that is not plain has a name, first not `.git`; and its plain spelling does not overlap that of
another path. -/
structure Spelled (paths : List String) : Prop where
  names : ∀ path ∈ paths, ¬ Plain path → plainNames path ≠ [] ∧ (plainNames path).head? ≠ some gitName
  overlaps : paths.Pairwise fun path other =>
    ¬ (Plain path ∧ Plain other) → pathsOverlap (plainSpelling path) (plainSpelling other) = false

section
variable {root : List (List Char)} {path other : String}

theorem startsWith_iff {text : String} : startsWith path text = true ↔ text.toList <+: path.toList := by
  rw [startsWith, isPrefixOf_iff_prefix]

theorem startsWith_slash_iff : startsWith path (other ++ "/") = true ↔ other.toList ++ ['/'] <+: path.toList := by
  rw [startsWith_iff, String.toList_append]
  rfl

/-- **Texts overlap** when the segments of one begin with those of the other. -/
theorem pathsOverlap_iff :
    pathsOverlap path other = true ↔ segments path <+: segments other ∨ segments other <+: segments path := by
  have hfst : segments other <+: segments path ↔ path = other ∨ startsWith path (other ++ "/") = true := by
    rw [startsWith_slash_iff, segments, segments, ← prefix_or_eq_iff, String.toList_inj]
  have hsec : segments path <+: segments other ↔ other = path ∨ startsWith other (path ++ "/") = true := by
    rw [startsWith_slash_iff, segments, segments, ← prefix_or_eq_iff, String.toList_inj]
  rw [hfst, hsec, pathsOverlap, Bool.or_eq_true, Bool.or_eq_true, decide_eq_true_eq]
  constructor
  · rintro ((heq | hbelow) | habove)
    · exact .inr (.inl heq)
    · exact .inr (.inr hbelow)
    · exact .inl (.inr habove)
  · rintro ((heq | habove) | (heq | hbelow))
    · exact .inl (.inl heq.symm)
    · exact .inr habove
    · exact .inl (.inl heq)
    · exact .inl (.inr hbelow)

/-! ### What the checks of a path leave -/

/-- What is known of a path that is not refused. -/
structure Accepted (path : String) : Prop where
  up : ∀ segment ∈ (segments path).dropLast, goesUp segment = false
  first : (segments path).head? ≠ some []
  git : (segments path).head? ≠ some gitName

theorem exists_split_of_mem_dropLast {α : Type} {xs : List α} {x : α} (h : x ∈ xs.dropLast) :
    ∃ before behind, xs = before ++ x :: behind ∧ behind ≠ [] := by
  obtain ⟨before, behind, hspl⟩ := append_of_mem h
  have hne : xs ≠ [] := by
    rintro rfl
    exact absurd h not_mem_nil
  refine ⟨before, behind ++ [xs.getLast hne], ?_, fun hnil => ?_⟩
  · rw [← cons_append, ← append_assoc, ← hspl, dropLast_append_getLast]
  · exact absurd (append_eq_nil_iff.mp hnil).2 (cons_ne_nil _ _)

theorem climbs_of_mem (h : ['.', '.'] ∈ (segments path).dropLast) :
    startsWith path "../" = true ∨ includes path "/../" = true := by
  obtain ⟨before, behind, hspl, hbeh⟩ := exists_split_of_mem_dropLast h
  by_cases hbef : before = []
  · left
    rw [hbef, nil_append] at hspl
    have hslash : "..".toList ++ ['/'] <+: path.toList := prefix_separator_iff.mpr ⟨behind, hbeh, hspl⟩
    exact startsWith_iff.mpr hslash
  · right
    have hpath : ['/'].intercalate (segments path) = path.toList := intercalate_splitOn '/'
    have htail : ['.', '.'] :: behind = [['.', '.']] ++ behind := rfl
    rw [hspl, intercalate_append hbef (cons_ne_nil _ _), htail,
      intercalate_append (cons_ne_nil _ _) hbeh, intercalate_singleton] at hpath
    rw [includes, decide_eq_true_eq]
    refine ⟨['/'].intercalate before, ['/'].intercalate behind, ?_⟩
    rw [← hpath]
    simp

theorem head_eq_some_iff {α : Type} {xs : List α} {x : α} : xs.head? = some x ↔ [x] <+: xs := by
  cases xs with
  | nil => simp
  | cons y ys => simp [cons_prefix_cons, eq_comm]

theorem accepted_of_safe (h : unsafeOwnedPath path = false) : Accepted path := by
  simp only [unsafeOwnedPath, Bool.or_eq_false_iff, decide_eq_false_iff_not] at h
  obtain ⟨⟨⟨⟨⟨⟨⟨⟨⟨hemp, -⟩, hroot⟩, -⟩, -⟩, hcli⟩, hins⟩, -⟩, hgit⟩, hgitI⟩ := h
  refine ⟨fun segment hseg => ?_, fun hhead => ?_, fun hhead => ?_⟩
  · by_contra hup
    rw [Bool.not_eq_false, goesUp, decide_eq_true_eq] at hup
    rw [hup] at hseg
    rcases climbs_of_mem hseg with hsts | hincludes
    · rw [hsts] at hcli
      exact Bool.noConfusion hcli
    · rw [hincludes] at hins
      exact Bool.noConfusion hins
  · have hbeg : ("" : String).toList.splitOn '/' <+: segments path := head_eq_some_iff.mp hhead
    rcases prefix_or_eq_iff.mpr hbeg with heq | hslash
    · exact hemp (String.toList_inj.mp heq)
    · have hsts : startsWith path "/" = true := startsWith_iff.mpr hslash
      rw [hsts] at hroot
      exact Bool.noConfusion hroot
  · have hbeg : ".git".toList.splitOn '/' <+: segments path := head_eq_some_iff.mp hhead
    rcases prefix_or_eq_iff.mpr hbeg with heq | hslash
    · exact hgit (String.toList_inj.mp heq)
    · have hsts : startsWith path ".git/" = true := startsWith_iff.mpr hslash
      rw [hsts] at hgitI
      exact Bool.noConfusion hgitI

/-! ### Where an accepted path leads -/

section
variable (h : Accepted path)
include h

/-- **An accepted path** leads to its names below the root, or not below the root. -/
theorem resolve_eq : resolve root path = root ++ plainNames path ∨ plainNames path = [] ∧ resolve root path <+: root := by
  obtain ⟨init, last, hspl⟩ : ∃ init last, segments path = init ++ [last] := by
    rcases eq_nil_or_concat (segments path) with hnil | ⟨init, last, hspl⟩
    · exact absurd hnil (splitOn_ne_nil _ _)
    · exact ⟨init, last, hspl.trans concat_eq_append⟩
  have hinit : ∀ segment ∈ init, goesUp segment = false := by
    have hup := h.up
    rwa [hspl, dropLast_concat] at hup
  have hwalk : resolve root path = walkStep stays goesUp (root ++ init.filter (! stays ·)) last := by
    rw [resolve, hspl, walk_append, walk_down hinit]
    rfl
  have hnms : namesOf path = init.filter (! stays ·) ++ [last].filter (! stays ·) := by
    rw [namesOf, hspl, filter_append]
  have hnotU : ∀ names : List (List Char), (∀ name ∈ names, goesUp name = false) → names.getLast? ≠ some ['.', '.'] := by
    intro names hall hlast
    exact absurd (hall _ (mem_of_getLast? hlast)) (by decide)
  have hfil : ∀ name ∈ init.filter (! stays ·), goesUp name = false :=
    fun name hname => hinit name (mem_of_mem_filter hname)
  rw [hwalk, walkStep, plainNames, hnms]
  by_cases hsta : stays last = true
  · left
    have hnone : [last].filter (! stays ·) = [] := by simp [hsta]
    rw [if_pos hsta, hnone, append_nil, if_neg (hnotU _ hfil)]
  · have hsome : [last].filter (! stays ·) = [last] := by simp [hsta]
    rw [if_neg hsta, hsome, List.getLast?_concat]
    by_cases hup : goesUp last = true
    · have hlast : last = ['.', '.'] := of_decide_eq_true hup
      rw [if_pos hup, if_pos (congrArg some hlast), dropLast_concat]
      by_cases hnil : init.filter (! stays ·) = []
      · rw [hnil, append_nil]
        exact .inr ⟨rfl, dropLast_prefix root⟩
      · exact .inl (dropLast_append_of_ne_nil hnil)
    · have hlast : ¬ some last = some ['.', '.'] := fun heq => hup (decide_eq_true (Option.some_inj.mp heq))
      rw [if_neg hup, if_neg hlast, append_assoc]
      exact .inl rfl

theorem resolve_of_names (hnms : plainNames path ≠ []) : resolve root path = root ++ plainNames path := by
  rcases @resolve_eq root path h with heq | ⟨hnil, -⟩
  · exact heq
  · exact absurd hnil hnms

/-- **An accepted path is inside** of the root exactly when it has a name, first not `.git`. -/
theorem inside_iff : Inside root path ↔ plainNames path ≠ [] ∧ (plainNames path).head? ≠ some gitName := by
  have hgit : root ++ [gitName] <+: root ++ plainNames path ↔ (plainNames path).head? = some gitName := by
    rw [prefix_append_right_inj, head_eq_some_iff]
  constructor
  · rintro ⟨hbelow, hstr, hnot⟩
    rcases @resolve_eq root path h with heq | ⟨-, habove⟩
    · rw [heq] at hstr hnot
      refine ⟨fun hnil => hstr ?_, fun hhead => hnot (hgit.mpr hhead)⟩
      rw [hnil, append_nil]
    · exact absurd (habove.eq_of_length_le hbelow.length_le) hstr
  · rintro ⟨hnms, hhead⟩
    have heq := @resolve_of_names root path h hnms
    refine ⟨?_, fun hroot => hnms ?_, fun hbeg => hhead (hgit.mp ?_)⟩
    · rw [heq]
      exact prefix_append ..
    · rw [heq] at hroot
      exact append_right_eq_self.mp hroot
    · rwa [heq] at hbeg

theorem apart_iff (h' : Accepted other) (hnms : plainNames path ≠ []) (hnms' : plainNames other ≠ []) :
    Apart root path other ↔ ¬ plainNames path <+: plainNames other ∧ ¬ plainNames other <+: plainNames path := by
  rw [Apart, resolve_of_names h hnms, resolve_of_names h' hnms', prefix_append_right_inj, prefix_append_right_inj]

end

/-! ### Plain spellings -/

theorem mem_segments_of_mem_plainNames {name : List Char} (h : name ∈ plainNames path) : name ∈ segments path := by
  rw [plainNames] at h
  split at h
  · exact mem_of_mem_filter (mem_of_mem_dropLast (mem_of_mem_dropLast h))
  · exact mem_of_mem_filter h

theorem segments_plainSpelling (h : plainNames path ≠ []) : segments (plainSpelling path) = plainNames path := by
  rw [segments, plainSpelling, String.toList_ofList]
  exact splitOn_intercalate '/'
    (fun name hname => not_mem_of_mem_splitOn (mem_segments_of_mem_plainNames hname)) h

theorem plainNames_of_plain (h : Plain path) : plainNames path = segments path := by
  have hnms : namesOf path = segments path := filter_eq_self.mpr fun segment hseg => by rw [(h segment hseg).1]; rfl
  rw [plainNames, hnms, if_neg]
  intro hlast
  exact absurd (h _ (mem_of_getLast? hlast)).2 (by decide)

theorem plainSpelling_of_plain (h : Plain path) : plainSpelling path = path := by
  rw [plainSpelling, plainNames_of_plain h, segments, intercalate_splitOn, String.ofList_toList]

theorem names_of_plain (h : Accepted path) (hpl : Plain path) :
    plainNames path ≠ [] ∧ (plainNames path).head? ≠ some gitName := by
  rw [plainNames_of_plain hpl]
  exact ⟨splitOn_ne_nil _ _, h.git⟩

theorem apart_iff_overlap (h : Accepted path) (h' : Accepted other) (hnms : plainNames path ≠ [])
    (hnms' : plainNames other ≠ []) :
    Apart root path other ↔ pathsOverlap (plainSpelling path) (plainSpelling other) = false := by
  rw [apart_iff h h' hnms hnms', ← Bool.not_eq_true, pathsOverlap_iff, segments_plainSpelling hnms,
    segments_plainSpelling hnms', not_or]

/-- What is known of the paths of compiled contracts: each is accepted, and two that are plain do not overlap. -/
structure Claimed (paths : List String) : Prop where
  accepted : ∀ path ∈ paths, Accepted path
  backslash : ∀ path ∈ paths, '\\' ∉ path.toList
  plain : paths.Pairwise fun path other => Plain path → Plain other → pathsOverlap path other = false

/-- **Claimed paths are confined** exactly when those that are not plain are spelled well. -/
theorem confined_iff_spelled {paths : List String} (h : Claimed paths) : Confined root paths ↔ Spelled paths := by
  constructor
  · rintro ⟨hins, hapa⟩
    have hnms : ∀ path ∈ paths, plainNames path ≠ [] ∧ (plainNames path).head? ≠ some gitName :=
      fun path hpath => (inside_iff (h.accepted path hpath)).mp (hins path hpath)
    refine ⟨fun path hpath _ => hnms path hpath, ?_⟩
    refine hapa.imp_of_mem fun {path other} hpath hoth happart _ => ?_
    exact (apart_iff_overlap (h.accepted path hpath) (h.accepted other hoth) (hnms path hpath).1
      (hnms other hoth).1).mp happart
  · rintro ⟨hspe, hove⟩
    have hnms : ∀ path ∈ paths, plainNames path ≠ [] ∧ (plainNames path).head? ≠ some gitName := by
      intro path hpath
      by_cases hpl : Plain path
      · exact names_of_plain (h.accepted path hpath) hpl
      · exact hspe path hpath hpl
    refine ⟨fun path hpath => (inside_iff (h.accepted path hpath)).mpr (hnms path hpath), ?_⟩
    refine (hove.and h.plain).imp_of_mem fun {path other} hpath hoth hpair => ?_
    refine (apart_iff_overlap (h.accepted path hpath) (h.accepted other hoth) (hnms path hpath).1
      (hnms other hoth).1).mpr ?_
    by_cases hpl : Plain path ∧ Plain other
    · rw [plainSpelling_of_plain hpl.1, plainSpelling_of_plain hpl.2]
      exact hpair.2 hpl.1 hpl.2
    · exact hpair.1 hpl

end

/-! ### What a compilation claims -/

def ownedOf : ContractKind → List String
  | .writer ownedPaths _ => ownedPaths
  | _ => []

/-- The paths that the writers among contracts own. -/
def contractPaths (tasks : List TaskContract) : List String := tasks.flatMap fun task => ownedOf task.kind

/-- The paths that a task asks for, each normalized and once. -/
def requestedOf : TaskKind → List String
  | .writer ownedPaths _ => (ownedPaths.map normalizedPathInput).foldl pushNew []
  | _ => []

/-- The paths that the writers among tasks ask for. -/
def requestPaths (tasks : List TaskRequest) : List String := tasks.flatMap fun task => requestedOf task.kind

section
variable {host : Host} {policy : Policy} {allowed ids : List String} {taskId : String}

/-- Texts that do not overlap. -/
def Separate (path other : String) : Prop := pathsOverlap path other = false

variable {path : String} {compiled : CompiledRequest}

theorem mem_foldl_pushNew {paths start : List String} :
    path ∈ paths.foldl pushNew start ↔ path ∈ start ∨ path ∈ paths := by
  induction paths generalizing start with
  | nil => simp
  | cons first paths ih =>
    rw [foldl_cons, ih, pushNew, mem_cons]
    split
    · rename_i hmem
      constructor
      · rintro (hpre | hrest)
        · exact .inl hpre
        · exact .inr (.inr hrest)
      · rintro (hpre | rfl | hrest)
        · exact .inl hpre
        · exact .inl hmem
        · exact .inr hrest
    · rw [mem_append, mem_singleton, or_assoc]

theorem normalizeOwnedPaths_spec {paths start owned : List String}
    (h : paths.foldlM (fun normalized value => do
      let path := normalizedPathInput value
      failIf (unsafeOwnedPath path = true)
        s!"Task {taskId} has an unsafe owned path: {value}. Use a path relative to the workspace root."
      return pushNew normalized path) start = .ok owned) :
    owned = (paths.map normalizedPathInput).foldl pushNew start ∧
      ∀ value ∈ paths, unsafeOwnedPath (normalizedPathInput value) = false := by
  induction paths generalizing start with
  | nil => exact ⟨(Except.ok.inj h).symm, fun _ hmem => absurd hmem not_mem_nil⟩
  | cons value paths ih =>
    rw [foldlM_cons] at h
    obtain ⟨next, hnext, h⟩ := bind_ok_iff.mp h
    obtain ⟨_, hsafe, hnext⟩ := bind_ok_iff.mp hnext
    rw [failIf_eq_ok, Bool.not_eq_true] at hsafe
    rw [← pure_ok_iff.mp hnext] at h
    obtain ⟨hownd, hrest⟩ := ih h
    exact ⟨hownd, forall_mem_cons.mpr ⟨hsafe, hrest⟩⟩

theorem claimPaths_spec {message : String → Claim → String} {paths : List String} {claimed claimed' : List Claim}
    (h : claimPaths message taskId claimed paths = .ok claimed') :
    claimed'.map (·.path) = claimed.map (·.path) ++ paths ∧
      ((claimed.map (·.path)).Pairwise Separate → (claimed.map (·.path) ++ paths).Pairwise Separate) := by
  induction paths generalizing claimed with
  | nil =>
    rw [claimPaths, Except.ok.injEq] at h
    rw [h, append_nil]
    exact ⟨rfl, id⟩
  | cons path paths ih =>
    rw [claimPaths] at h
    split at h
    · cases h
    · rename_i hnone
      obtain ⟨hpat, hsep⟩ := ih h
      rw [map_append, map_singleton, append_assoc, singleton_append] at hpat hsep
      refine ⟨hpat, fun hcla => hsep ?_⟩
      refine pairwise_append.mpr ⟨hcla, pairwise_singleton .., fun old hold other hoth => ?_⟩
      obtain ⟨claim, hclaim, rfl⟩ := mem_map.mp hold
      rw [mem_singleton.mp hoth]
      exact Bool.eq_false_of_not_eq_true (List.find?_eq_none.mp hnone claim hclaim)

theorem claims_nothing {kind : ContractKind} {requested : TaskKind} {claims claims' : Claims} (h : ownedOf kind = [])
    (hreq : requestedOf requested = []) (hclai : claims'.paths = claims.paths) :
    ownedOf kind = requestedOf requested ∧ (∀ path ∈ ownedOf kind, unsafeOwnedPath path = false) ∧
      claims'.paths.map (·.path) = claims.paths.map (·.path) ++ ownedOf kind ∧
      ((claims.paths.map (·.path)).Pairwise Separate →
        (claims.paths.map (·.path) ++ ownedOf kind).Pairwise Separate) := by
  rw [h, hreq, hclai, append_nil]
  exact ⟨rfl, fun _ hmem => absurd hmem not_mem_nil, rfl, id⟩

theorem compileKind_spec {task : TaskRequest} {kind : ContractKind} {claims claims' : Claims}
    (h : compileKind host allowed task claims = .ok (kind, claims')) :
    ownedOf kind = requestedOf task.kind ∧ (∀ path ∈ ownedOf kind, unsafeOwnedPath path = false) ∧
      claims'.paths.map (·.path) = claims.paths.map (·.path) ++ ownedOf kind ∧
      ((claims.paths.map (·.path)).Pairwise Separate →
        (claims.paths.map (·.path) ++ ownedOf kind).Pairwise Separate) := by
  rw [compileKind] at h
  split at h
  · cases h
    rename_i htask
    exact claims_nothing rfl (by rw [htask]; rfl) rfl
  · cases h
    rename_i htask
    exact claims_nothing rfl (by rw [htask]; rfl) rfl
  · rename_i htask
    obtain ⟨_, -, h⟩ := bind_ok_iff.mp h
    obtain ⟨_, -, h⟩ := bind_ok_iff.mp h
    obtain ⟨_, -, h⟩ := bind_ok_iff.mp h
    cases pure_ok_iff.mp h
    exact claims_nothing rfl (by rw [htask]; rfl) rfl
  · rename_i paths commands htask
    obtain ⟨owned, hownd, h⟩ := bind_ok_iff.mp h
    obtain ⟨_, -, h⟩ := bind_ok_iff.mp h
    obtain ⟨claimed, hcla, h⟩ := bind_ok_iff.mp h
    obtain ⟨_, -, h⟩ := bind_ok_iff.mp h
    cases pure_ok_iff.mp h
    obtain ⟨hnor, hsafe⟩ := normalizeOwnedPaths_spec hownd
    obtain ⟨hpat, hsep⟩ := claimPaths_spec hcla
    rw [htask]
    refine ⟨hnor, fun path hpath => ?_, hpat, hsep⟩
    change path ∈ owned at hpath
    rw [hnor, mem_foldl_pushNew] at hpath
    obtain ⟨value, hvl, rfl⟩ := mem_map.mp (hpath.resolve_left not_mem_nil)
    exact hsafe value hvl

theorem compileTasks_spec {tasks : List TaskRequest} {contracts : List TaskContract} {claims : Claims}
    (h : compileTasks host policy allowed ids claims tasks = .ok contracts) :
    (contracts.map fun contract => ownedOf contract.kind) = (tasks.map fun task => requestedOf task.kind) ∧
      (∀ path ∈ requestPaths tasks, unsafeOwnedPath path = false) ∧ ((claims.paths.map (·.path)).Pairwise Separate →
        (claims.paths.map (·.path) ++ requestPaths tasks).Pairwise Separate) := by
  induction tasks generalizing claims contracts with
  | nil =>
    cases h
    rw [requestPaths, flatMap_nil, append_nil]
    exact ⟨rfl, fun _ hmem => absurd hmem not_mem_nil, id⟩
  | cons task tasks ih =>
    rw [compileTasks] at h
    obtain ⟨⟨contract, claims'⟩, htask, h⟩ := bind_ok_iff.mp h
    obtain ⟨rest, hrest, h⟩ := bind_ok_iff.mp h
    cases pure_ok_iff.mp h
    obtain ⟨hpat, hsafe, hsep⟩ := ih hrest
    obtain ⟨_, -, htask⟩ := bind_ok_iff.mp htask
    obtain ⟨_, -, htask⟩ := bind_ok_iff.mp htask
    obtain ⟨_, -, htask⟩ := bind_ok_iff.mp htask
    obtain ⟨_, -, htask⟩ := bind_ok_iff.mp htask
    obtain ⟨_, -, htask⟩ := bind_ok_iff.mp htask
    obtain ⟨_, -, htask⟩ := bind_ok_iff.mp htask
    obtain ⟨⟨kind, claims''⟩, hkind, htask⟩ := bind_ok_iff.mp htask
    cases pure_ok_iff.mp htask
    obtain ⟨hownd, hsaf, hclai, hsepa⟩ := compileKind_spec hkind
    have hrequ : requestPaths (task :: tasks) = ownedOf kind ++ requestPaths tasks := by
      rw [hownd]
      exact flatMap_cons
    rw [hclai] at hsep
    rw [hrequ, ← append_assoc]
    refine ⟨?_, fun path hpath => ?_, fun hcla => hsep (hsepa hcla)⟩
    · rw [map_cons, map_cons, hpat, ← hownd]
      rfl
    · rcases mem_append.mp hpath with hfst | hlater
      · exact hsaf path hfst
      · exact hsafe path hlater

/-- **A compiled request** owns what was asked for, and no two of its paths overlap. -/
theorem compileSubagentDagRequest_spec {request : StartRequest}
    (h : compileSubagentDagRequest host request policy = .ok compiled) :
    (compiled.tasks.map fun contract => ownedOf contract.kind) = (request.tasks.map fun task => requestedOf task.kind) ∧
      (∀ path ∈ requestPaths request.tasks, unsafeOwnedPath path = false) ∧
      (requestPaths request.tasks).Pairwise Separate := by
  rw [compileSubagentDagRequest] at h
  obtain ⟨_, -, h⟩ := bind_ok_iff.mp h
  obtain ⟨_, -, h⟩ := bind_ok_iff.mp h
  obtain ⟨_, -, h⟩ := bind_ok_iff.mp h
  obtain ⟨_, -, h⟩ := bind_ok_iff.mp h
  obtain ⟨_, -, h⟩ := bind_ok_iff.mp h
  obtain ⟨tasks, htks, h⟩ := bind_ok_iff.mp h
  obtain ⟨_, -, h⟩ := bind_ok_iff.mp h
  obtain ⟨_, -, h⟩ := bind_ok_iff.mp h
  obtain ⟨_, -, h⟩ := bind_ok_iff.mp h
  cases pure_ok_iff.mp h
  obtain ⟨hpat, hsafe, hsep⟩ := compileTasks_spec htks
  exact ⟨hpat, hsafe, hsep List.Pairwise.nil⟩

/-! ### Normalization -/

theorem withoutDot_subset (path : List Char) : withoutDot path ⊆ path := by
  unfold withoutDot
  split
  · exact fun c hc => mem_cons_of_mem _ (mem_cons_of_mem _ hc)
  · exact fun c hc => hc

theorem backslash_not_mem (value : String) : '\\' ∉ (normalizedPathInput value).toList := by
  have hsla : '\\' ∉ slashes value.toList := by
    intro hmem
    obtain ⟨c, -, hc⟩ := mem_map.mp hmem
    split at hc
    · exact absurd hc (by decide)
    · rename_i hne
      exact hne hc
  rw [normalizedPathInput]
  split
  · rw [String.toList_ofList]
    exact fun hmem => hsla (withoutDot_subset _ (mem_of_mem_dropLast hmem))
  · rw [String.toList_ofList]
    exact fun hmem => hsla (withoutDot_subset _ hmem)

/-- **A plain path** is its own normalization. -/
theorem normalizedPathInput_of_plain (hbac : '\\' ∉ path.toList) (hpl : Plain path) :
    normalizedPathInput path = path := by
  have hsla : slashes path.toList = path.toList := by
    refine (map_congr_left fun c hc => ?_).trans (map_id' _)
    rw [if_neg]
    rintro rfl
    exact hbac hc
  have hdot : withoutDot path.toList = path.toList := by
    unfold withoutDot
    split
    · rename_i rest hpath
      have hseg : ['.'] ∈ segments path := by
        have hspl := splitOn_append_cons_self (a := '/') ['.'] rest
        rw [segments, hpath]
        exact hspl ▸ mem_append_left _ (by decide)
      exact absurd (hpl _ hseg).1 (by decide)
    · rfl
  have hlast : path.toList.getLast? ≠ some '/' := by
    intro hlast
    obtain ⟨init, hinit⟩ := List.getLast?_eq_some_iff.mp hlast
    have hseg : [] ∈ segments path := by
      rw [segments, hinit, splitOn_append_cons_self]
      exact mem_append_right _ (mem_singleton_self _)
    exact absurd (hpl _ hseg).1 (by decide)
  rw [normalizedPathInput, hsla, hdot, if_neg (fun h => hlast h.2.1), String.ofList_toList]

theorem backslash_of_requested {kind : TaskKind} (h : path ∈ requestedOf kind) : '\\' ∉ path.toList := by
  cases kind with
  | writer ownedPaths commands =>
    rw [requestedOf, mem_foldl_pushNew] at h
    obtain ⟨value, -, rfl⟩ := mem_map.mp (h.resolve_left not_mem_nil)
    exact backslash_not_mem value
  | analyst | reviewer | externalWriter paths => exact absurd h not_mem_nil

theorem requested_again {tasks : List TaskContract} (h : path ∈ contractPaths tasks) :
    normalizedPathInput path ∈ requestPaths (tasks.map requestTaskFromCompiled) := by
  obtain ⟨task, htask, hpath⟩ := mem_flatMap.mp h
  refine mem_flatMap.mpr ⟨requestTaskFromCompiled task, mem_map_of_mem htask, ?_⟩
  rw [requestTaskFromCompiled]
  generalize task.kind = kind at hpath ⊢
  cases kind with
  | writer ownedPaths commands =>
    exact mem_foldl_pushNew.mpr (.inr (mem_map_of_mem hpath))
  | readOnly role | externalWriter paths => exact absurd hpath not_mem_nil

/-! ### Runs -/

/-- The requests that runs have: compiled from a start, or from an expansion of one. -/
inductive Compiled (host : Host) : CompiledRequest → Prop where
  | start {request : StartRequest} {policy : Policy} {compiled : CompiledRequest}
      (h : compileSubagentDagRequest host request policy = .ok compiled) : Compiled host compiled
  | expand {existing compiled : CompiledRequest} {expansion : ExpandRequest} {policy : Policy}
      (hexi : Compiled host existing)
      (h : compileSubagentDagExpansion host existing expansion policy = .ok compiled) : Compiled host compiled

theorem claimed_of_start {request : StartRequest} (h : compileSubagentDagRequest host request policy = .ok compiled) :
    contractPaths compiled.tasks = requestPaths request.tasks ∧ Claimed (requestPaths request.tasks) := by
  obtain ⟨hownd, hsafe, hsep⟩ := compileSubagentDagRequest_spec h
  refine ⟨?_, fun path hpath => accepted_of_safe (hsafe path hpath), fun path hpath => ?_,
    hsep.imp fun happart _ _ => happart⟩
  · rw [contractPaths, requestPaths, flatMap_def, flatMap_def, hownd]
  · obtain ⟨task, -, hmem⟩ := mem_flatMap.mp hpath
    exact backslash_of_requested hmem

theorem claimed_of_expansion {existing compiled : CompiledRequest} {expansion : ExpandRequest}
    (hexi : Claimed (contractPaths existing.tasks))
    (h : compileSubagentDagExpansion host existing expansion policy = .ok compiled) :
    contractPaths compiled.tasks = contractPaths existing.tasks ++ requestPaths expansion.tasks ∧
      Claimed (contractPaths existing.tasks ++ requestPaths expansion.tasks) := by
  rw [compileSubagentDagExpansion] at h
  obtain ⟨_, -, h⟩ := bind_ok_iff.mp h
  split at h
  · rename_i hnil
    obtain ⟨_, -, h⟩ := bind_ok_iff.mp h
    cases pure_ok_iff.mp h
    rw [hnil, requestPaths, flatMap_nil, append_nil]
    exact ⟨rfl, hexi⟩
  · obtain ⟨combined, hcomb, h⟩ := bind_ok_iff.mp h
    cases pure_ok_iff.mp h
    obtain ⟨hownd, hsafe, hsep⟩ := compileSubagentDagRequest_spec hcomb
    have hspl : requestPaths (existing.tasks.map requestTaskFromCompiled ++ expansion.tasks) =
        requestPaths (existing.tasks.map requestTaskFromCompiled) ++ requestPaths expansion.tasks :=
      flatMap_append
    rw [hspl] at hsafe hsep
    obtain ⟨-, hadd, hcross⟩ := pairwise_append.mp hsep
    refine ⟨?_, fun path hpath => ?_, fun path hpath => ?_, ?_⟩
    · have hdrop : contractPaths (combined.tasks.drop existing.tasks.length) = requestPaths expansion.tasks := by
        rw [contractPaths, requestPaths, flatMap_def, flatMap_def, map_drop, hownd, map_append,
          drop_left' (by rw [length_map, length_map])]
      rw [← hdrop]
      exact flatMap_append
    · rcases mem_append.mp hpath with hold | hnew
      · exact hexi.accepted path hold
      · exact accepted_of_safe (hsafe path (mem_append_right _ hnew))
    · rcases mem_append.mp hpath with hold | hnew
      · exact hexi.backslash path hold
      · obtain ⟨task, -, hmem⟩ := mem_flatMap.mp hnew
        exact backslash_of_requested hmem
    · refine pairwise_append.mpr ⟨hexi.plain, hadd.imp fun happart _ _ => happart, ?_⟩
      intro path hpath other hoth hpl _
      -- a plain path is checked again as it is
      have haga := hcross _ (requested_again hpath) other hoth
      rwa [normalizedPathInput_of_plain (hexi.backslash path hpath) hpl] at haga

theorem claimed_of_compiled (h : Compiled host compiled) : Claimed (contractPaths compiled.tasks) := by
  induction h with
  | start h =>
    obtain ⟨hpat, hcla⟩ := claimed_of_start h
    rwa [hpat]
  | expand _ h ih =>
    obtain ⟨hpat, hcla⟩ := claimed_of_expansion ih h
    rwa [hpat]

/-- **The ownership of a run is confined and disjoint exactly when** its paths that are not plain are spelled well:
for every request that compiles, and for every expansion of a run. -/
theorem ownership_iff (host : Host) (root : List (List Char)) :
    (∀ request policy compiled, compileSubagentDagRequest host request policy = .ok compiled →
      (Confined root (contractPaths compiled.tasks) ↔ Spelled (requestPaths request.tasks))) ∧
    ∀ existing expansion policy compiled, Compiled host existing →
      compileSubagentDagExpansion host existing expansion policy = .ok compiled →
      (Confined root (contractPaths compiled.tasks) ↔
        Spelled (contractPaths existing.tasks ++ requestPaths expansion.tasks)) := by
  refine ⟨fun request policy compiled h => ?_, fun existing expansion policy compiled hexi h => ?_⟩
  · obtain ⟨hpat, hcla⟩ := claimed_of_start h
    rw [hpat]
    exact confined_iff_spelled hcla
  · obtain ⟨hpat, hcla⟩ := claimed_of_expansion (claimed_of_compiled hexi) h
    rw [hpat]
    exact confined_iff_spelled hcla

end

/-! ### Samples -/

def sampleHost : Host where
  contractHash _ := "hash"
  isAbsolute path := startsWith path "/"
  canonicalizeProspectivePath path _ := .ok path

def sampleWriter (id : String) (ownedPaths : List String) : TaskRequest where
  id := id
  objective := "Write"
  kind := .writer ownedPaths none

/-- A path that leads to the root, and two that lead to one place. -/
def sampleRequest : StartRequest where
  tasks := [sampleWriter "a" ["src/.."], sampleWriter "b" ["src/./b"], sampleWriter "c" ["src/b"]]

/-- A request that compiles, whose paths are neither confined nor apart. -/
theorem ownership_fails : ∃ compiled, compileSubagentDagRequest sampleHost sampleRequest {} = .ok compiled ∧
      contractPaths compiled.tasks = ["src/..", "src/./b", "src/b"] ∧
      ¬ Inside [['r']] "src/.." ∧ ¬ Apart [['r']] "src/./b" "src/b" ∧
      ¬ Confined [['r']] (contractPaths compiled.tasks) := by
  obtain ⟨compiled, hcom⟩ := except_ok_of_toBool
    (show (compileSubagentDagRequest sampleHost sampleRequest {}).toBool = true by decide +kernel)
  have hpat : contractPaths compiled.tasks = ["src/..", "src/./b", "src/b"] :=
    (claimed_of_start hcom).1.trans (by decide +kernel)
  have hins : ¬ Inside [['r']] "src/.." := fun h =>
    h.strict (show resolve [['r']] "src/.." = [['r']] by decide +kernel)
  have hapa : ¬ Apart [['r']] "src/./b" "src/b" := fun h =>
    h.1 (show resolve [['r']] "src/./b" <+: resolve [['r']] "src/b" by decide +kernel)
  refine ⟨compiled, hcom, hpat, hins, hapa, fun h => hins (h.inside _ ?_)⟩
  rw [hpat]
  exact mem_cons_self ..

theorem ownership_iff_sample : ∃ compiled expanded, compileSubagentDagRequest sampleHost
        ⟨[sampleWriter "a" ["./src/a"], sampleWriter "b" ["src//b"]], none, none, some true⟩ {} = .ok compiled ∧
      compileSubagentDagExpansion sampleHost compiled ⟨[sampleWriter "c" ["docs/"]], none⟩ {} = .ok expanded ∧
      Confined [['r']] (contractPaths compiled.tasks) ∧ Confined [['r']] (contractPaths expanded.tasks) := by
  obtain ⟨compiled, hcom⟩ := except_ok_of_toBool
    (show (compileSubagentDagRequest sampleHost
      ⟨[sampleWriter "a" ["./src/a"], sampleWriter "b" ["src//b"]], none, none, some true⟩ {}).toBool = true
      by decide +kernel)
  have hboth : ((compileSubagentDagRequest sampleHost
      ⟨[sampleWriter "a" ["./src/a"], sampleWriter "b" ["src//b"]], none, none, some true⟩ {}).bind fun compiled =>
        compileSubagentDagExpansion sampleHost compiled ⟨[sampleWriter "c" ["docs/"]], none⟩ {}).toBool = true := by
    decide +kernel
  rw [hcom] at hboth
  obtain ⟨expanded, hexp⟩ := except_ok_of_toBool hboth
  have hpre : requestPaths [sampleWriter "a" ["./src/a"], sampleWriter "b" ["src//b"]] = ["src/a", "src//b"] := by
    decide +kernel
  have hadd : requestPaths [sampleWriter "c" ["docs/"]] = ["docs"] := by decide +kernel
  have hspe : Spelled ["src/a", "src//b"] := ⟨by decide +kernel, by decide +kernel⟩
  have hspe' : Spelled ["src/a", "src//b", "docs"] := ⟨by decide +kernel, by decide +kernel⟩
  refine ⟨compiled, expanded, hcom, hexp, ?_, ?_⟩
  · refine ((ownership_iff sampleHost [['r']]).1 _ _ _ hcom).mpr ?_
    exact hpre ▸ hspe
  · refine ((ownership_iff sampleHost [['r']]).2 _ _ _ _ (.start hcom) hexp).mpr ?_
    rw [(claimed_of_start hcom).1]
    exact hpre ▸ hadd ▸ hspe'

end DagRequest
end EasyPi.Subagent
