import Mathlib.Data.List.Basic

/-!
# Runs of Partial Step Functions

A component that takes step after step is given by a partial step function
`step : σ → α → Option σ`: from state `s` the action `a` leads to the state it
returns, or is not enabled (`none`). This module collects what every such
component shares:

* `exec step s as` carries out the actions `as` in order from `s`;
* `StepsMeet step ok s as` says that every action of that run meets the condition
  `ok` in the state it is taken from;
* `exec_invariant` is the induction over runs: what every step meeting `ok`
  preserves, every run of such steps preserves;
* `stepsMeet_iff_forall_reached` is its converse, for a condition that is exact.

A run of unconditioned steps is the case where `ok` holds throughout
(`exec_invariant_of_step`). `Reaches step p s t` says that some run of actions from `p`
leads from `s` to `t`.
-/

namespace RtBoot

variable {σ α : Type*} {as : List α} {s : σ} {step : σ → α → Option σ} {ok : σ → α → Prop}
  {p : α → Prop} {Inv : σ → Prop}

/-- Carry out the actions `as` one after the other, starting from `s`. The result is
`none` when some action is not enabled in the state the run has reached. -/
def exec (step : σ → α → Option σ) : σ → List α → Option σ
  | s, [] => some s
  | s, a :: as => (step s a).bind fun t => exec step t as

/-- Every action of the run `as` from `s` meets `ok` in the state it is taken from.
Actions after one that is not enabled are not constrained: they are not taken. -/
def StepsMeet (step : σ → α → Option σ) (ok : σ → α → Prop) : σ → List α → Prop
  | _, [] => True
  | s, a :: as => ok s a ∧
      match step s a with
      | none => True
      | some t => StepsMeet step ok t as

instance decidableStepsMeet (step : σ → α → Option σ) (ok : σ → α → Prop)
    [∀ s a, Decidable (ok s a)] : ∀ s as, Decidable (StepsMeet step ok s as)
  | _, [] => .isTrue trivial
  | s, a :: as =>
      have : Decidable (match step s a with
          | none => True
          | some t => StepsMeet step ok t as) :=
        match step s a with
        | none => .isTrue trivial
        | some t => decidableStepsMeet step ok t as
      inferInstanceAs (Decidable (_ ∧ _))

theorem exec_cons (step : σ → α → Option σ) (s : σ) (a : α) (as : List α) :
    exec step s (a :: as) = (step s a).bind fun t => exec step t as :=
  rfl

/-- A run splits at any point: first the actions before it, then those after it. -/
theorem exec_append (step : σ → α → Option σ) (s : σ) (as bs : List α) :
    exec step s (as ++ bs) = (exec step s as).bind fun t => exec step t bs := by
  induction as generalizing s with
  | nil => rfl
  | cons a as ih =>
      rw [List.cons_append, exec_cons, exec_cons, Option.bind_assoc]
      congr 1
      funext t
      exact ih t

theorem exec_append_eq_some {u : σ} {bs : List α} :
    exec step s (as ++ bs) = some u ↔
      ∃ t, exec step s as = some t ∧ exec step t bs = some u := by
  rw [exec_append, Option.bind_eq_some_iff]

/-- A run takes a step and then runs on. -/
theorem exec_cons_eq_some {u : σ} {a : α} :
    exec step s (a :: as) = some u ↔
      ∃ t, step s a = some t ∧ exec step t as = some u := by
  rw [exec_cons, Option.bind_eq_some_iff]

/-- The condition holds of the first step. -/
theorem StepsMeet.head {a : α} (h : StepsMeet step ok s (a :: as)) : ok s a :=
  h.1

/-- The condition holds behind the first step. -/
theorem StepsMeet.tail {t : σ} {a : α} (h : StepsMeet step ok s (a :: as))
    (ht : step s a = some t) :
    StepsMeet step ok t as := by
  have h2 := h.2
  rw [ht] at h2
  exact h2

/-- The condition on a run is one on its beginning and one on what follows. -/
theorem StepsMeet.of_append {t : σ}
    {bs : List α} (h : StepsMeet step ok s (as ++ bs)) (hrun : exec step s as = some t) :
    StepsMeet step ok s as ∧ StepsMeet step ok t bs := by
  induction as generalizing s with
  | nil =>
      obtain rfl : s = t := Option.some.inj hrun
      exact ⟨trivial, h⟩
  | cons a as ih =>
      obtain ⟨u, hu, hrest⟩ := exec_cons_eq_some.mp hrun
      obtain ⟨hbefore, hafter⟩ := ih (h.tail hu) hrest
      refine ⟨⟨h.head, ?_⟩, hafter⟩
      rw [hu]
      exact hbefore

/-- A condition that every action meets by itself can be added to one on the steps. -/
theorem StepsMeet.and_of_forall_mem (h : StepsMeet step ok s as) (hall : ∀ a ∈ as, p a) :
    StepsMeet step (fun s a => p a ∧ ok s a) s as := by
  induction as generalizing s with
  | nil => trivial
  | cons a as ih =>
      refine ⟨⟨hall a List.mem_cons_self, h.head⟩, ?_⟩
      cases hs : step s a with
      | none => trivial
      | some t => exact ih (h.tail hs) fun b hb => hall b (List.mem_cons_of_mem _ hb)

/-- **Invariants along runs.** What every step that meets `ok` preserves, every run of
such steps preserves. -/
theorem exec_invariant (hstep : ∀ {s a t}, ok s a → Inv s → step s a = some t → Inv t) {t : σ}
    (hmeet : StepsMeet step ok s as) (hs : Inv s) (hrun : exec step s as = some t) : Inv t := by
  induction as generalizing s with
  | nil =>
      obtain rfl : s = t := Option.some.inj hrun
      exact hs
  | cons a as ih =>
      obtain ⟨u, hu, hrest⟩ := exec_cons_eq_some.mp hrun
      exact ih (hmeet.tail hu) (hstep hmeet.head hs hu) hrest

/-- **Conditions that are exact.** When `ok` is exactly what a step needs to preserve
`Inv`, the states reached along a run all satisfy `Inv` exactly when its steps all meet
`ok`. -/
theorem stepsMeet_iff_forall_reached
    (hstep : ∀ {s a}, p a → Inv s → (ok s a ↔ ∀ t, step s a = some t → Inv t)) (hp : ∀ a ∈ as, p a)
    (hs : Inv s) :
    StepsMeet step ok s as ↔ ∀ bs t, bs <+: as → exec step s bs = some t → Inv t := by
  constructor
  · rintro hmeet bs t ⟨cs, rfl⟩ hrun
    have hmeet' := (hmeet.of_append hrun).1.and_of_forall_mem fun a ha =>
      hp a (List.mem_append_left cs ha)
    exact exec_invariant (fun hok hu hstepu => (hstep hok.1 hu).mp hok.2 _ hstepu) hmeet' hs hrun
  · intro hall
    induction as generalizing s with
    | nil => trivial
    | cons a as ih =>
        refine ⟨(hstep (hp a List.mem_cons_self) hs).mpr fun t ht => ?_, ?_⟩
        · exact hall [a] t ⟨as, rfl⟩ (exec_cons_eq_some.mpr ⟨t, ht, rfl⟩)
        · cases ht : step s a with
          | none => trivial
          | some t =>
              have hreach : ∀ {bs u}, bs <+: as → exec step t bs = some u → Inv u :=
                fun hpre hrun => hall (a :: _) _ (List.cons_prefix_cons.mpr ⟨rfl, hpre⟩)
                  (exec_cons_eq_some.mpr ⟨t, ht, hrun⟩)
              exact ih (fun b hb => hp b (List.mem_cons_of_mem _ hb))
                (hreach ( List.nil_prefix) rfl) fun bs u => hreach

/-- Conditions that agree in every state with an invariant are conditions on the same runs. -/
theorem stepsMeet_congr {ok' : σ → α → Prop} (hok : ∀ {s a}, Inv s → (ok s a ↔ ok' s a))
    (hstep : ∀ {s a t}, Inv s → step s a = some t → Inv t) (hs : Inv s) (as : List α) :
    StepsMeet step ok s as ↔ StepsMeet step ok' s as := by
  induction as generalizing s with
  | nil => exact Iff.rfl
  | cons a as ih =>
      refine and_congr (hok hs) ?_
      cases ht : step s a with
      | none => exact Iff.rfl
      | some t => exact ih (hstep hs ht)

/-- A condition that always holds constrains no run. -/
theorem stepsMeet_of_forall (h : ∀ s a, ok s a) (s : σ) (as : List α) : StepsMeet step ok s as := by
  induction as generalizing s with
  | nil => trivial
  | cons a as ih =>
      refine ⟨h s a, ?_⟩
      cases step s a with
      | none => trivial
      | some t => exact ih t

/-- A condition on the actions alone. -/
theorem stepsMeet_of_forall_mem (h : ∀ a ∈ as, p a) : StepsMeet step (fun _ a => p a) s as := by
  induction as generalizing s with
  | nil => trivial
  | cons a as ih =>
      refine ⟨h a List.mem_cons_self, ?_⟩
      cases step s a with
      | none => trivial
      | some t => exact ih fun b hb => h b (List.mem_cons_of_mem _ hb)

/-- What every step preserves, every run preserves. -/
theorem exec_invariant_of_step (hstep : ∀ {s a t}, Inv s → step s a = some t → Inv t) {t : σ}
    (hs : Inv s) (hrun : exec step s as = some t) : Inv t := by
  have hmeet : StepsMeet step (fun _ _ => True) s as :=
    stepsMeet_of_forall (fun _ _ => trivial) s as
  exact exec_invariant (fun _ => hstep) hmeet hs hrun

/-- Some run of actions that all satisfy `p` leads from `s` to `t`. -/
def Reaches (step : σ → α → Option σ) (p : α → Prop) (s t : σ) : Prop :=
  ∃ as, (∀ a ∈ as, p a) ∧ exec step s as = some t

section
variable {step : σ → α → Option σ} {p : α → Prop} {s t u : σ}

theorem Reaches.refl (s : σ) : Reaches step p s s :=
  ⟨[], fun _ h => absurd h List.not_mem_nil, rfl⟩

/-- A step in front of a run. -/
theorem Reaches.of_step {a : α} (ha : p a) (hstep : step s a = some t) (h : Reaches step p t u) :
    Reaches step p s u := by
  obtain ⟨as, hall, hrun⟩ := h
  exact ⟨a :: as, List.forall_mem_cons.mpr ⟨ha, hall⟩, exec_cons_eq_some.mpr ⟨t, hstep, hrun⟩⟩

/-- Runs compose. -/
theorem Reaches.trans (h : Reaches step p s t) (h' : Reaches step p t u) :
    Reaches step p s u := by
  obtain ⟨as, hall, hrun⟩ := h
  obtain ⟨bs, hall', hrun'⟩ := h'
  exact ⟨as ++ bs, List.forall_mem_append.mpr ⟨hall, hall'⟩,
    exec_append_eq_some.mpr ⟨t, hrun, hrun'⟩⟩

theorem Reaches.mono {q : α → Prop} (hpq : ∀ {a}, p a → q a) (h : Reaches step p s t) :
    Reaches step q s t := by
  obtain ⟨as, hall, hrun⟩ := h
  exact ⟨as, fun a ha => hpq (hall a ha), hrun⟩

/-- What every such step preserves holds where it leads. -/
theorem Reaches.invariant {I : σ → Prop}
    (hstep : ∀ {s a t}, p a → I s → step s a = some t → I t) (h : Reaches step p s t)
    (hs : I s) : I t := by
  obtain ⟨as, hall, hrun⟩ := h
  have hmeet : StepsMeet step (fun _ a => p a) s as := stepsMeet_of_forall_mem hall
  exact exec_invariant hstep hmeet hs hrun

end

end RtBoot
