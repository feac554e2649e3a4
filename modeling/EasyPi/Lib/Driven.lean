/-
# Programs and who answers them

An asynchronous program makes calls, which are appended to a journal, and goes on when the
answer comes. A driver says how each call is answered, by what has been called before; when
programs run side by side it also picks which of them acts. A program is answered for its own
last call, whatever the others have called in between.

`Settles` is total correctness: whichever programs are picked, the run comes to an end, and
its result has the postcondition. `Sound` says the same of a program that sees nothing of the
world but the answers, with the calls it makes itself, and needs no schedule. Programs that
are sound settle side by side (`settles_interleave`), and where the answer to a call does not
depend on the calls before, a sound program has one result only (`Sound.fixed`).
-/
import Mathlib.Data.List.Perm.Basic
import Mathlib.Logic.Function.Basic
import Mathlib.Logic.Hydra
import EasyPi.Lib.Proc

namespace EasyPi

/-- How programs are answered. A world has a journal of calls, and is live as long as nothing but
the programs acts on it. -/
structure Driver (W R C : Type) where
  log : W → List C
  add : W → List C → W
  live : W → Prop
  start : W
  answer : List C → C → R
  idle : R
  pick : ℕ → R
  log_add : ∀ w made, log (add w made) = log w ++ made
  live_add : ∀ {w} made, live w → live (add w made)
  live_start : live start

/-- The last call of each program, and the program that acts. -/
structure Turn (C : Type) where
  pending : ℕ → Option C := fun _ => none
  current : ℕ := 0

namespace Turn

variable {C : Type}

/-- The program that acts has made some calls. -/
def note (s : Turn C) (made : List C) : Turn C :=
  { s with pending := Function.update s.pending s.current (made.getLast?.or (s.pending s.current)) }

def turnTo (s : Turn C) (i : ℕ) : Turn C := { s with current := i }

end Turn

namespace Driver

open List Proc

variable {W R C α β : Type} (d : Driver W R C)

def reply (log : List C) : Option C → R
  | none => d.idle
  | some call => d.answer log call

/-- The program has returned, or its next action is answered. -/
def CanGoOn (p : Proc W R α) (s : Turn C) (w : W) : Prop :=
  match p with
  | .pure _ => True
  | .act f _ => (f w (d.reply (d.log w) (s.pending s.current))).isSome

/-- Whichever program is picked each time, the run ends, and with the postcondition. -/
inductive Settles (Q : α → W → Prop) : Proc W R α → Turn C → W → Prop
  | ret {a : α} {s : Turn C} {w : W} : Q a w → Settles Q (.pure a) s w
  | answer {β : Type} {f : W → R → Option (β × W)} {k : β → Proc W R α} {s : Turn C} {w w' : W}
      {b : β} : f w (d.reply (d.log w) (s.pending s.current)) = some (b, w') →
      Settles Q (k b) (s.note ((d.log w').drop (d.log w).length)) w' → Settles Q (.act f k) s w
  | pick {β : Type} {f : W → R → Option (β × W)} {k : β → Proc W R α} {s : Turn C} {w : W} :
      f w (d.reply (d.log w) (s.pending s.current)) = none →
      (∃ i b w', f w (d.pick i) = some (b, w') ∧ d.CanGoOn (k b) (s.turnTo i) w') →
      (∀ i b w', f w (d.pick i) = some (b, w') → d.CanGoOn (k b) (s.turnTo i) w' → Settles Q (k b) (s.turnTo i) w') →
      Settles Q (.act f k) s w

/-- Each action of the program depends on the answer only and appends calls that are `P`; it is
always answered; and the result, with all calls of the program, has the postcondition. -/
def Sound (P : C → Prop) (Q : α → List C → Prop) : Proc W R α → Option C → List C → Prop
  | .pure a, _, own => Q a own
  | @Proc.act _ _ _ β f k, pending, own => ∃ g : R → Option (β × List C),
      (∀ w r, d.live w → f w r = (g r).map fun x => (x.1, d.add w x.2)) ∧
      ∀ log, ∃ b made, g (d.reply log pending) = some (b, made) ∧ (∀ c ∈ made, P c) ∧
        Sound P Q (k b) (made.getLast?.or pending) (own ++ made)

/-- The program returns at once, or begins with a call. -/
def BeginsWithCall (p : Proc W R α) : Prop :=
  match p with
  | .pure _ => True
  | .act f _ => ∃ b made, made ≠ [] ∧ ∀ w r, d.live w → f w r = some (b, d.add w made)

variable {d} {P P' : C → Prop} {Q Q' : α → List C → Prop} {p : Proc W R α} {pending : Option C}
  {own : List C} {w : W} {s : Turn C}

theorem Sound.mono (h : d.Sound P Q p pending own) (hP : ∀ c, P c → P' c)
    (hQ : ∀ a own', Q a own' → Q' a own') : d.Sound P' Q' p pending own := by
  induction p generalizing pending own with
  | pure a => exact hQ a own h
  | act f k ih =>
    obtain ⟨g, hf, hg⟩ := h
    refine ⟨g, hf, fun log => ?_⟩
    obtain ⟨b, made, hb, hmade, hk⟩ := hg log
    exact ⟨b, made, hb, fun c hc => hP c (hmade c hc), ih b hk⟩

theorem Sound.bind {Q : β → List C → Prop} {g : α → Proc W R β}
    (h : d.Sound P (fun a own' => ∀ pending', d.Sound P Q (g a) pending' own') p pending own) :
    d.Sound P Q (p >>= g) pending own := by
  induction p generalizing pending own with
  | pure a => exact h pending
  | act f k ih =>
    obtain ⟨e, hf, he⟩ := h
    refine ⟨e, hf, fun log => ?_⟩
    obtain ⟨b, made, hb, hmade, hk⟩ := he log
    exact ⟨b, made, hb, hmade, ih b hk⟩

theorem Sound.after {before : List C} (h : d.Sound P (fun a o => Q a (before ++ o)) p pending own) :
    d.Sound P Q p pending (before ++ own) := by
  induction p generalizing pending own with
  | pure a => exact h
  | act f k ih =>
    obtain ⟨g, hf, hg⟩ := h
    refine ⟨g, hf, fun log => ?_⟩
    obtain ⟨b, made, hb, hmade, hk⟩ := hg log
    refine ⟨b, made, hb, hmade, ?_⟩
    rw [append_assoc]
    exact ih b hk

theorem BeginsWithCall.bind {g : α → Proc W R β} (h : d.BeginsWithCall p)
    (hg : ∀ a, d.BeginsWithCall (g a)) : d.BeginsWithCall (p >>= g) := by
  cases p with
  | pure a => exact hg a
  | act f k => exact h

/-! ### One result -/

theorem Sound.fixed_of_none (hans : ∀ c log log', P c → d.answer log c = d.answer log' c)
    (hpend : ∀ c ∈ pending, P c) (h : d.Sound P Q p pending own) :
    ∃ a own', Q a own' ∧ d.Sound P (fun b o => b = a ∧ o = own') p pending own := by
  induction p generalizing pending own with
  | pure a => exact ⟨a, own, h, rfl, rfl⟩
  | act f k ih =>
    obtain ⟨g, hf, hg⟩ := h
    obtain ⟨b, made, hb, hmade, hk⟩ := hg []
    have hnext : ∀ c ∈ made.getLast?.or pending, P c := by
      intro c hc
      obtain hlast | ⟨-, hlast⟩ := Option.or_eq_some_iff.mp hc
      · exact hmade c (mem_of_getLast? hlast)
      · exact hpend c hlast
    obtain ⟨a, own', hQ, hk'⟩ := ih b hnext hk
    have hrep : ∀ log, d.reply log pending = d.reply [] pending := by
      intro log
      cases pending with
      | none => rfl
      | some c => exact hans c _ _ (hpend c rfl)
    refine ⟨a, own', hQ, g, hf, fun log => ⟨b, made, ?_, hmade, hk'⟩⟩
    rw [hrep log, hb]

/-- **A program that begins with a call has one result**, whatever was called before. -/
theorem Sound.fixed (hans : ∀ c log log', P c → d.answer log c = d.answer log' c)
    (hbeg : d.BeginsWithCall p) (h : d.Sound P Q p none own) :
    ∃ a own', Q a own' ∧ ∀ pending, d.Sound P (fun b o => b = a ∧ o = own') p pending own := by
  obtain ⟨a, own', hQ, hfix⟩ := h.fixed_of_none hans (by simp)
  refine ⟨a, own', hQ, fun pending => ?_⟩
  cases p with
  | pure b => exact hfix
  | act f k =>
    obtain ⟨b, made, hne, hcall⟩ := hbeg
    obtain ⟨g, hf, hg⟩ := hfix
    obtain ⟨b', made', hb, hmade, hk⟩ := hg []
    have hsame := (hcall d.start (d.reply [] none) d.live_start).symm.trans
      (hf d.start (d.reply [] none) d.live_start)
    rw [hb] at hsame
    obtain ⟨rfl, hadd⟩ := Prod.mk.inj (Option.some.inj hsame)
    obtain rfl : made = made' := by
      have := congrArg d.log hadd
      rwa [d.log_add, d.log_add, append_cancel_left_eq] at this
    refine ⟨fun _ => some (b, made), fun w r hw => hcall w r hw, fun _ => ⟨b, made, rfl, hmade, ?_⟩⟩
    rw [List.getLast?_eq_some_getLast hne] at hk ⊢
    exact hk

theorem Settles.mono {Q Q' : α → W → Prop} (h : d.Settles Q p s w) (hQ : ∀ a w, Q a w → Q' a w) : d.Settles Q' p s w := by
  induction h with
  | ret ha => exact .ret (hQ _ _ ha)
  | answer hf _ ih => exact .answer hf ih
  | pick hf hgo _ ih => exact .pick hf hgo ih

theorem Settles.both {Q Q' : α → W → Prop} (h : d.Settles Q p s w) (h' : d.Settles Q' p s w) :
    ∃ a w', Q a w' ∧ Q' a w' := by
  induction h with
  | ret ha =>
    cases h' with
    | ret ha' => exact ⟨_, _, ha, ha'⟩
  | answer hf _ ih =>
    cases h' with
    | answer hf' hk' =>
      obtain ⟨rfl, rfl⟩ := Prod.mk.inj (Option.some.inj (hf.symm.trans hf'))
      exact ih hk'
    | pick hf' _ _ => exact absurd (hf.symm.trans hf') (by simp)
  | pick hf hgo _ ih =>
    cases h' with
    | answer hf' _ => exact absurd (hf.symm.trans hf') (by simp)
    | pick _ _ hall =>
      obtain ⟨i, b, w', hi, hcan⟩ := hgo
      exact ih i b w' hi hcan (hall i b w' hi hcan)

variable (d) in
/-- The run of a program in which nothing is picked. -/
def evaluate : Proc W R α → Turn C → W → Option (α × W)
  | .pure a, _, w => some (a, w)
  | .act f k, s, w =>
    match f w (d.reply (d.log w) (s.pending s.current)) with
    | none => none
    | some (b, w') => evaluate (k b) (s.note ((d.log w').drop (d.log w).length)) w'

theorem settles_of_evaluate {Q : α → W → Prop} (h : ∃ r ∈ d.evaluate p s w, Q r.1 r.2) : d.Settles Q p s w := by
  obtain ⟨r, hr, hQ⟩ := h
  induction p generalizing s w with
  | pure a =>
    obtain rfl := Option.some.inj hr
    exact .ret hQ
  | act f k ih =>
    simp only [evaluate, Option.mem_def] at hr
    split at hr
    · cases hr
    · rename_i b w' hf
      exact .answer hf (ih b hr)

theorem Sound.step {f : W → R → Option (β × W)} {k : β → Proc W R α}
    (h : d.Sound P Q (.act f k) pending own) (hw : d.live w) :
    ∃ b made, f w (d.reply (d.log w) pending) = some (b, d.add w made) ∧
      d.Sound P Q (k b) (made.getLast?.or pending) (own ++ made) := by
  obtain ⟨g, hf, hg⟩ := h
  obtain ⟨b, made, hb, -, hk⟩ := hg (d.log w)
  exact ⟨b, made, by rw [hf w _ hw, hb]; rfl, hk⟩

theorem drop_log_add (w : W) (made : List C) : (d.log (d.add w made)).drop (d.log w).length = made := by
  rw [d.log_add, drop_left]

theorem Sound.run (h : d.Sound P Q p (s.pending s.current) own) (hw : d.live w) :
    ∃ a own' s' w' made, Q a own' ∧ own' = own ++ made ∧ d.live w' ∧ d.log w' = d.log w ++ made ∧
      ∀ {β : Type} {g : α → Proc W R β} {Q' : β → W → Prop}, d.Settles Q' (g a) s' w' → d.Settles Q' (p >>= g) s w := by
  induction p generalizing s own w with
  | pure a =>
    exact ⟨a, own, s, w, [], h, (append_nil _).symm, hw, (append_nil _).symm, id⟩
  | act f k ih =>
    obtain ⟨b, made, hf, hk⟩ := h.step hw
    have hnext : d.Sound P Q (k b) ((s.note made).pending (s.note made).current) (own ++ made) := by
      simp only [Turn.note, Function.update_self]
      exact hk
    obtain ⟨a, own', s', w', made', hQ, hown, hw', hlog, hrun⟩ := ih b hnext (d.live_add made hw)
    refine ⟨a, own', s', w', made ++ made', hQ, ?_, hw', ?_, fun hg => .answer hf ?_⟩
    · rw [hown, append_assoc]
    · rw [hlog, d.log_add, append_assoc]
    · rw [drop_log_add]
      exact hrun hg

/-! ### Sound programs side by side -/

/-- The programs that are left after an action. -/
def Child (q p : Proc W R α) : Prop :=
  ∃ (β : Type) (f : W → R → Option (β × W)) (k : β → Proc W R α) (b : β), p = .act f k ∧ q = k b

theorem child_wf : WellFounded (Child : Proc W R α → Proc W R α → Prop) := by
  refine ⟨fun p => ?_⟩
  induction p with
  | pure a =>
    refine ⟨_, fun q hq => ?_⟩
    obtain ⟨β, f, k, b, hp, -⟩ := hq
    cases hp
  | act f k ih =>
    refine ⟨_, fun q hq => ?_⟩
    obtain ⟨β, f', k', b, hp, rfl⟩ := hq
    cases hp
    exact ih b

variable {ps : List (Proc W R α)}

theorem cutExpand_set {i : ℕ} (hi : i < ps.length) {q : Proc W R α} (h : Child q ps[i]) :
    Relation.CutExpand Child (ps.set i q : Multiset (Proc W R α)) (ps : Multiset (Proc W R α)) := by
  refine ⟨{q}, ps[i], by simpa using h, ?_⟩
  rw [add_comm, add_comm (ps : Multiset (Proc W R α)), Multiset.singleton_add, Multiset.singleton_add,
    Multiset.cons_coe, Multiset.cons_coe, Multiset.coe_eq_coe]
  refine ((set_perm_cons_eraseIdx hi q).cons ps[i]).trans (.trans (.swap _ _ _) ?_)
  exact (getElem_cons_eraseIdx_perm hi).cons q

theorem exists_act (h : results ps = none) :
    ∃ (i : ℕ) (β : Type) (f : W → R → Option (β × W)) (k : β → Proc W R α), ps[i]? = some (.act f k) := by
  induction ps with
  | nil => cases h
  | cons p ps ih =>
    cases p with
    | pure a =>
      obtain ⟨i, β, f, k, hi⟩ := ih (Option.map_eq_none_iff.mp h)
      exact ⟨i + 1, β, f, k, hi⟩
    | act f k => exact ⟨0, _, f, k, rfl⟩

theorem flatten_set_append {xss : List (List C)} {i : ℕ} (hi : i < xss.length) (made : List C) :
    (xss.set i (xss[i] ++ made)).flatten.Perm (xss.flatten ++ made) := by
  induction xss generalizing i with
  | nil => simp at hi
  | cons xs xss ih =>
    cases i with
    | zero =>
      simp only [set_cons_zero, getElem_cons_zero, flatten_cons, append_assoc]
      exact (perm_append_comm).append_left xs
    | succ i =>
      simp only [set_cons_succ, getElem_cons_succ, flatten_cons, append_assoc]
      exact (ih (by simpa using hi)).append_left xs

section

variable {pick : R → Option ℕ} {Qs : ℕ → α → List C → Prop} {Q' : β → W → Prop}
  {g : List α → Proc W R β} {base : List C} {n : ℕ}

/-- The programs that run, each of them sound with the calls it has made. -/
structure Pool (d : Driver W R C) (P : C → Prop) (Qs : ℕ → α → List C → Prop) (base : List C) (n : ℕ)
    (ps : List (Proc W R α)) (owns : List (List C)) (s : Turn C) (w : W) : Prop where
  programs : ps.length = n
  journals : owns.length = n
  sound : ∀ i (hi : i < ps.length) (hi' : i < owns.length), d.Sound P (Qs i) ps[i] (s.pending i) owns[i]
  live : d.live w
  log : (d.log w).Perm (base ++ owns.flatten)

theorem Pool.step {owns : List (List C)} (h : Pool d P Qs base n ps owns s w)
    {i : ℕ} {γ : Type} {f : W → R → Option (γ × W)} {k : γ → Proc W R α} (hi : ps[i]? = some (.act f k)) :
    ∃ b made owns', f w (d.reply (d.log w) (s.pending i)) = some (b, d.add w made) ∧
      Pool d P Qs base n (ps.set i (k b)) owns' ((s.turnTo i).note made) (d.add w made) := by
  obtain ⟨hps, howns, hsnd, hw, hlog⟩ := h
  obtain ⟨hlt, hget⟩ := List.getElem?_eq_some_iff.mp hi
  have hlt' : i < owns.length := by omega
  have hact := hsnd i hlt hlt'
  rw [hget] at hact
  obtain ⟨b, made, hf, hk⟩ := hact.step hw
  refine ⟨b, made, owns.set i (owns[i] ++ made), hf, ?_⟩
  refine ⟨by rw [length_set, hps], by rw [length_set, howns], fun j hj hj' => ?_, d.live_add made hw, ?_⟩
  · simp only [Turn.note, Turn.turnTo, getElem_set]
    split
    · rename_i hij
      subst hij
      rw [Function.update_self]
      exact hk
    · rename_i hij
      rw [Function.update_of_ne (Ne.symm hij)]
      exact hsnd j _ _
  · rw [d.log_add]
    refine (hlog.append_right made).trans ?_
    rw [append_assoc]
    exact ((flatten_set_append hlt' made).symm).append_left base

/-- **Sound programs settle side by side**, with the calls of each of them in the journal. -/
theorem settles_interleave (hpick : ∀ i, pick (d.pick i) = some i)
    (hrep : ∀ log pending, pick (d.reply log pending) = none)
    (hg : ∀ (as : List α) (owns : List (List C)) (s : Turn C) (w : W),
      Pool d P Qs base n (as.map Pure.pure) owns s w → d.Settles Q' (g as) s w)
    {owns : List (List C)} (h : Pool d P Qs base n ps owns s w) :
    ∃ N, ∀ fuel ≥ N, d.Settles Q' (interleave pick fuel ps >>= g) s w := by
  induction hm : (ps : Multiset (Proc W R α)) using child_wf.cutExpand.induction generalizing
    ps owns s w with
  | _ m ih =>
    subst hm
    -- each program that may act leads to a pool from which fuel suffices
    have hnext : ∀ i, ∃ N, ∀ fuel ≥ N, ∀ (γ : Type) (f : W → R → Option (γ × W))
        (k : γ → Proc W R α), ps[i]? = some (.act f k) →
        d.Settles Q' (.act f fun b => interleave pick fuel (ps.set i (k b)) >>= g) (s.turnTo i) w := by
      intro i
      by_cases hact : ∃ (γ : Type) (f : W → R → Option (γ × W)) (k : γ → Proc W R α), ps[i]? = some (.act f k)
      · obtain ⟨γ, f, k, hi⟩ := hact
        obtain ⟨b, made, owns', hf, hpool⟩ := h.step hi
        obtain ⟨hlt, hget⟩ := List.getElem?_eq_some_iff.mp hi
        obtain ⟨N, hN⟩ := ih _ (cutExpand_set hlt ⟨γ, f, k, b, hget, rfl⟩) hpool rfl
        refine ⟨N, fun fuel hfuel γ' f' k' hi' => ?_⟩
        obtain ⟨⟩ := Option.some.inj (hi.symm.trans hi')
        refine .answer hf ?_
        rw [drop_log_add]
        exact hN fuel hfuel
      · exact ⟨0, fun _ _ γ f k hi => absurd ⟨γ, f, k, hi⟩ hact⟩
    choose N hN using hnext
    refine ⟨(Finset.range ps.length).sup N + 1, fun fuel hfuel => ?_⟩
    obtain ⟨fuel, rfl⟩ : ∃ m, fuel = m + 1 := ⟨fuel - 1, by omega⟩
    unfold Proc.interleave
    split
    · rename_i as hres
      rw [results_eq_some hres] at h
      exact hg as owns s w h
    · rename_i hres
      have hset : ∀ (i : ℕ) (γ : Type) (f : W → R → Option (γ × W)) (k : γ → Proc W R α), ps[i]? = some (.act f k) →
          d.Settles Q' (.act f fun b => interleave pick fuel (ps.set i (k b)) >>= g) (s.turnTo i) w := by
        intro i γ f k hi
        have hlt := (List.getElem?_eq_some_iff.mp hi).1
        have hle : N i ≤ (Finset.range ps.length).sup N := Finset.le_sup (Finset.mem_range.mpr hlt)
        exact hN i fuel (by omega) γ f k hi
      refine .pick (by simp [hrep]) ?_ ?_
      · obtain ⟨i, γ, f, k, hi⟩ := exists_act hres
        obtain ⟨b, made, -, hf, -⟩ := h.step hi
        refine ⟨i, i, w, by simp [hpick], ?_⟩
        simp only [hi]
        exact Option.isSome_iff_exists.mpr ⟨_, hf⟩
      · intro i j w' hj hgo
        obtain ⟨rfl, rfl⟩ : j = i ∧ w' = w := by simpa [hpick, eq_comm] using hj
        have hstu : ¬ d.CanGoOn (stuck >>= g) (s.turnTo j) w' := by
          intro hstu
          cases hstu
        cases hq : ps[j]? with
        | none =>
          simp only [hq] at hgo
          exact absurd hgo hstu
        | some q =>
          cases q with
          | pure a =>
            simp only [hq] at hgo
            exact absurd hgo hstu
          | act f k =>
            simp only [hq]
            exact hset j _ f k hq

end

end Driver
end EasyPi
