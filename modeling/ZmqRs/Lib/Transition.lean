import Mathlib.Data.List.Induction
import Mathlib.Data.List.Perm.Basic
import Mathlib.Data.Option.Basic

/-! Transition systems whose steps can be run.  An action is a step of one
party; `next s a = none` says that `a` is not enabled in `s`. -/

universe u v

namespace ZmqRs.Lib

structure System (σ : Type u) (α : Type v) where
  init : σ
  next : σ → α → Option σ

namespace System

variable (S : System σ α)

def run : σ → List α → Option σ
  | s, [] => some s
  | s, a :: as => (S.next s a).bind fun s' => run s' as

def Reachable (s : σ) : Prop := ∃ as, S.run S.init as = some s

/-- The runs of `S` in which every step meets the condition `ok`. -/
def guarded (ok : σ → α → Prop) [∀ s a, Decidable (ok s a)] : System σ α where
  init := S.init
  next s a := if ok s a then S.next s a else none

@[simp] theorem run_nil (s : σ) : S.run s [] = some s := rfl

theorem run_cons (s : σ) (a : α) (as : List α) :
    S.run s (a :: as) = (S.next s a).bind fun s' => S.run s' as := rfl

theorem run_append (s : σ) (as bs : List α) :
    S.run s (as ++ bs) = (S.run s as).bind fun s' => S.run s' bs := by
  induction as generalizing s with
  | nil => rfl
  | cons a as ih =>
    rw [List.cons_append, run_cons, run_cons, Option.bind_assoc]
    congr 1
    funext s'
    exact ih s'

theorem invariant_run {P : σ → Prop} (hstep : ∀ s a s', P s → S.next s a = some s' → P s')
    {s s' : σ} {as : List α} (hs : P s) (h : S.run s as = some s') : P s' := by
  induction as generalizing s with
  | nil =>
    obtain rfl : s = s' := by simpa using h
    exact hs
  | cons a as ih =>
    rw [run_cons, Option.bind_eq_some_iff] at h
    obtain ⟨s₁, h₁, h₂⟩ := h
    exact ih (hstep s a s₁ hs h₁) h₂

theorem Reachable.invariant {S : System σ α} {P : σ → Prop} (hinit : P S.init)
    (hstep : ∀ s a s', P s → S.next s a = some s' → P s') {s : σ} (h : S.Reachable s) : P s := by
  obtain ⟨as, h⟩ := h
  exact S.invariant_run hstep hinit h

theorem Reachable.next {S : System σ α} {s s' : σ} (h : S.Reachable s) {a : α}
    (hn : S.next s a = some s') : S.Reachable s' := by
  obtain ⟨as, h⟩ := h
  refine ⟨as ++ [a], ?_⟩
  rw [run_append, h, Option.bind_some, run_cons, hn]
  rfl

theorem next_of_guarded {S : System σ α} {ok : σ → α → Prop} [∀ s a, Decidable (ok s a)] {s s' : σ}
    {a : α} (h : (S.guarded ok).next s a = some s') : ok s a ∧ S.next s a = some s' := by
  simp only [guarded] at h
  split at h
  · rename_i hok
    exact ⟨hok, h⟩
  · cases h

theorem run_of_guarded {S : System σ α} {ok : σ → α → Prop} [∀ s a, Decidable (ok s a)] {s s' : σ}
    {as : List α} (h : (S.guarded ok).run s as = some s') : S.run s as = some s' := by
  induction as generalizing s with
  | nil => exact h
  | cons a as ih =>
    rw [run_cons, Option.bind_eq_some_iff] at h
    obtain ⟨s₁, h₁, h₂⟩ := h
    rw [run_cons, (next_of_guarded h₁).2]
    exact ih h₂

theorem invariant_run_guarded {ok : σ → α → Prop} [∀ s a, Decidable (ok s a)] {P : σ → Prop}
    (hstep : ∀ s a s', ok s a → P s → S.next s a = some s' → P s') {s s' : σ} {as : List α}
    (hs : P s) (h : (S.guarded ok).run s as = some s') : P s' := by
  refine (S.guarded ok).invariant_run (fun s a s' hs hn => ?_) hs h
  obtain ⟨hok, hn⟩ := next_of_guarded hn
  exact hstep s a s' hok hs hn

theorem Reachable.invariant_guarded {S : System σ α} {ok : σ → α → Prop}
    [∀ s a, Decidable (ok s a)] {P : σ → Prop} (hinit : P S.init)
    (hstep : ∀ s a s', ok s a → P s → S.next s a = some s' → P s') {s : σ}
    (h : (S.guarded ok).Reachable s) : P s := by
  obtain ⟨as, h⟩ := h
  exact S.invariant_run_guarded hstep hinit h

/-- If `Q` says after a step just that it held before and the step was admitted, then in a run
that keeps `P` it says at the end just that it held at first and every step was admitted. -/
theorem run_guarded_iff {ok : σ → α → Prop} [∀ s a, Decidable (ok s a)] {P Q : σ → Prop}
    (hP : ∀ s a s', P s → S.next s a = some s' → P s')
    (hQ : ∀ s a s', P s → S.next s a = some s' → (Q s' ↔ Q s ∧ ok s a))
    {s s' : σ} {as : List α} (hs : P s) (h : S.run s as = some s') :
    Q s' ↔ Q s ∧ (S.guarded ok).run s as = some s' := by
  induction as generalizing s with
  | nil =>
    obtain rfl : s = s' := by simpa using h
    simp
  | cons a as ih =>
    rw [run_cons, Option.bind_eq_some_iff] at h
    obtain ⟨s₁, h₁, h₂⟩ := h
    rw [ih (hP s a s₁ hs h₁) h₂, hQ s a s₁ hs h₁, and_assoc, run_cons]
    apply and_congr_right
    intro _
    by_cases hok : ok s a
    · simp [guarded, hok, h₁]
    · simp [guarded, hok]

/-- If `Q` says after a step from where it held just that the step was admitted, then it holds
all along a run just where every step was admitted. -/
theorem forall_take_iff_guarded {ok : σ → α → Prop} [∀ s a, Decidable (ok s a)] {P Q : σ → Prop}
    (hP : ∀ s a s', P s → S.next s a = some s' → P s')
    (hQ : ∀ s a s', P s → Q s → S.next s a = some s' → (Q s' ↔ ok s a))
    {s s' : σ} {as : List α} (hs : P s) (hq : Q s) (h : S.run s as = some s') :
    (∀ n t, S.run s (as.take n) = some t → Q t) ↔ (S.guarded ok).run s as = some s' := by
  induction as generalizing s with
  | nil =>
    refine ⟨fun _ => h, fun _ n t ht => ?_⟩
    rw [List.take_nil] at ht
    cases ht
    exact hq
  | cons a as ih =>
    rw [run_cons, Option.bind_eq_some_iff] at h
    obtain ⟨s₁, h₁, h₂⟩ := h
    have hiff := hQ s a s₁ hs hq h₁
    have hs₁ := hP s a s₁ hs h₁
    constructor
    · intro hall
      have hq₁ : Q s₁ := hall 1 s₁ (by rw [List.take_succ_cons, List.take_zero, run_cons, h₁]; rfl)
      have hrest : ∀ n t, S.run s₁ (as.take n) = some t → Q t := fun n t ht =>
        hall (n + 1) t (by rw [List.take_succ_cons, run_cons, h₁]; exact ht)
      have hnext : (S.guarded ok).next s a = some s₁ := (if_pos (hiff.mp hq₁)).trans h₁
      rw [run_cons, hnext]
      exact (ih hs₁ hq₁ h₂).mp hrest
    · intro hg n t ht
      rw [run_cons, Option.bind_eq_some_iff] at hg
      obtain ⟨s₂, hg₁, hg₂⟩ := hg
      obtain ⟨hok, hn⟩ := next_of_guarded hg₁
      rw [h₁] at hn
      cases hn
      have hq₁ := hiff.mpr hok
      cases n with
      | zero =>
        cases ht
        exact hq
      | succ n =>
        rw [List.take_succ_cons, run_cons, h₁] at ht
        exact (ih hs₁ hq₁ h₂).mpr hg₂ n t ht

theorem run_history {P : List α → σ → Prop} (hinit : P [] S.init)
    (hstep : ∀ as s a s', P as s → S.next s a = some s' → P (as ++ [a]) s')
    {as : List α} {s : σ} (h : S.run S.init as = some s) : P as s := by
  induction as using List.reverseRecOn generalizing s with
  | nil =>
    obtain rfl : S.init = s := by simpa using h
    exact hinit
  | append_singleton as a ih =>
    rw [run_append, Option.bind_eq_some_iff] at h
    obtain ⟨s₁, h₁, h₂⟩ := h
    rw [run_cons, Option.bind_eq_some_iff] at h₂
    obtain ⟨s₂, h₂, h₃⟩ := h₂
    obtain rfl : s₂ = s := by simpa using h₃
    exact hstep as s₁ a s₂ (ih h₁) h₂

def steps : σ → List α → List (σ × α)
  | _, [] => []
  | s, a :: as =>
    match S.next s a with
    | none => []
    | some s' => (s, a) :: steps s' as

@[simp] theorem steps_nil (s : σ) : S.steps s [] = [] := rfl

theorem steps_cons {s s' : σ} {a : α} (h : S.next s a = some s') (as : List α) :
    S.steps s (a :: as) = (s, a) :: S.steps s' as := by
  rw [steps, h]

theorem mem_of_mem_steps {s : σ} {as : List α} {x : σ × α} (h : x ∈ S.steps s as) : x.2 ∈ as := by
  induction as generalizing s with
  | nil => cases h
  | cons a as ih =>
    rw [steps] at h
    split at h
    · cases h
    · cases List.mem_cons.mp h with
      | inl h => simp [h]
      | inr h => exact List.mem_cons_of_mem _ (ih h)

theorem run_steps {P : List (σ × α) → σ → Prop}
    (hstep : ∀ l s a s', P l s → S.next s a = some s' → P (l ++ [(s, a)]) s')
    {l : List (σ × α)} {s s' : σ} {as : List α} (hs : P l s) (h : S.run s as = some s') :
    P (l ++ S.steps s as) s' := by
  induction as generalizing l s with
  | nil =>
    obtain rfl : s = s' := by simpa using h
    simpa using hs
  | cons a as ih =>
    rw [run_cons, Option.bind_eq_some_iff] at h
    obtain ⟨s₁, h₁, h₂⟩ := h
    have hl := ih (hstep l s a s₁ hs h₁) h₂
    rw [List.append_assoc, List.singleton_append] at hl
    rw [steps_cons S h₁]
    exact hl

/-- A run seen through `f`, where the actions that `g` does not keep cannot be seen. -/
theorem run_project (S : System σ α) (T : System τ β) (f : σ → τ) (g : α → Option β)
    (hkeep : ∀ s a b s', g a = some b → S.next s a = some s' → T.next (f s) b = some (f s'))
    (hskip : ∀ s a s', g a = none → S.next s a = some s' → f s' = f s)
    {s s' : σ} {as : List α} (h : S.run s as = some s') :
    T.run (f s) (as.filterMap g) = some (f s') := by
  induction as generalizing s with
  | nil =>
    obtain rfl : s = s' := by simpa using h
    rfl
  | cons a as ih =>
    rw [run_cons, Option.bind_eq_some_iff] at h
    obtain ⟨s₁, h₁, h₂⟩ := h
    cases hg : g a with
    | none =>
      rw [List.filterMap_cons_none hg, ← hskip s a s₁ hg h₁]
      exact ih h₂
    | some b =>
      rw [List.filterMap_cons_some hg, run_cons, hkeep s a b s₁ hg h₁]
      exact ih h₂

end System

theorem filterMap_append_singleton (f : α → Option β) (l : List α) (x : α) :
    (l ++ [x]).filterMap f = l.filterMap f ++ (f x).toList := by
  rw [List.filterMap_append]
  cases hf : f x with
  | none => rw [List.filterMap_cons_none hf, List.filterMap_nil, Option.toList_none]
  | some b => rw [List.filterMap_cons_some hf, List.filterMap_nil, Option.toList_some]

theorem mem_set_of_mem {l : List α} {i : Nat} {x y : α} (z : α) (hi : l[i]? = some x)
    (h : y ∈ l) : y = x ∨ y ∈ l.set i z := by
  obtain ⟨j, hj⟩ := List.mem_iff_getElem?.mp h
  by_cases hij : i = j
  · subst hij
    exact .inl (Option.some.inj (hj.symm.trans hi))
  · exact .inr (List.mem_iff_getElem?.mpr ⟨j, (List.getElem?_set_ne hij).trans hj⟩)

theorem mem_set_self_of_getElem? {l : List α} {i : Nat} {x : α} (z : α) (hi : l[i]? = some x) :
    z ∈ l.set i z :=
  List.mem_set (List.getElem?_eq_some_iff.mp hi).1 z

theorem map_set_of_getElem? {l : List α} {i : Nat} {x z : α} (f : α → β) (hi : l[i]? = some x)
    (hz : f z = f x) : (l.set i z).map f = l.map f := by
  rw [List.map_set]
  refine List.ext_getElem? fun j => ?_
  by_cases h : i = j
  · subst h
    obtain ⟨hl, rfl⟩ := List.getElem?_eq_some_iff.mp hi
    simp [hl, hz]
  · rw [List.getElem?_set_ne h]

theorem mem_iff_of_getElem? {l : List α} {i : Nat} {x : α} (hi : l[i]? = some x) (y : α) :
    y ∈ l ↔ y = x ∨ y ∈ l.eraseIdx i := by
  obtain ⟨hl, rfl⟩ := List.getElem?_eq_some_iff.mp hi
  rw [← (List.getElem_cons_eraseIdx_perm hl).mem_iff, List.mem_cons]

theorem mem_set_iff_of_getElem? {l : List α} {i : Nat} {x : α} (z : α) (hi : l[i]? = some x)
    (y : α) : y ∈ l.set i z ↔ y = z ∨ y ∈ l.eraseIdx i := by
  have hz : (l.set i z)[i]? = some z :=
    List.getElem?_set_self (List.getElem?_eq_some_iff.mp hi).1
  rw [mem_iff_of_getElem? hz, List.eraseIdx_set_eq]

theorem countP_set_of_getElem? {l : List α} {i : Nat} {x : α} (f : α → Bool) (y : α)
    (hi : l[i]? = some x) :
    (l.set i y).countP f + (f x).toNat = l.countP f + (f y).toNat := by
  obtain ⟨hl, rfl⟩ := List.getElem?_eq_some_iff.mp hi
  rw [List.countP_set hl]
  cases hx : f l[i] with
  | false => cases f y <;> simp
  | true =>
    have hpos : 0 < l.countP f := List.countP_pos_iff.mpr ⟨_, List.getElem_mem hl, hx⟩
    cases f y <;> simp <;> omega

end ZmqRs.Lib
