import Mathlib.Data.Nat.Init
import Mathlib.Order.Nat
import Mathlib.Tactic.Push
import RtBoot.Run

/-!
# Infinite Runs and Progress

A component that never ends runs forever: `InfiniteRun step` is a sequence of states in which
every state follows from the one before by an action, or by doing nothing. Some of the actions
are the component's own, the others belong to its environment. A run is fair to the actions
`p` if it does not stand still forever while one of them is enabled.

* `InfiniteRun.ofExec`: a run that ends is one that stands still from there on;
* `InfiniteRun.invariant`: what every step preserves holds in every state of a run;
* `InfiniteRun.eventually_of_rank`: a fair run comes to a goal when, short of the goal, some
  own action is enabled, every own action lowers a rank and no other action raises it.
-/

namespace RtBoot

variable {σ α : Type*} {step : σ → α → Option σ}

/-- A run that never ends. Where there is no action the state stays as it is. -/
structure InfiniteRun (step : σ → α → Option σ) where
  state : ℕ → σ
  action : ℕ → Option α
  next : ∀ i, (action i = none ∧ state (i + 1) = state i) ∨
    ∃ a, action i = some a ∧ step (state i) a = some (state (i + 1))

namespace InfiniteRun

/-- The run never stands still for good while an action from `p` is enabled. -/
def Fair (r : InfiniteRun step) (p : α → Prop) : Prop :=
  ∀ i, ∃ j ≥ i, (∃ a, p a ∧ r.action j = some a) ∨ ∀ a, p a → step (r.state j) a = none

/-- A run that ends, standing still from there on. -/
def ofExec (step : σ → α → Option σ) (s : σ) (as : List α) (h : (exec step s as).isSome) :
    InfiniteRun step where
  state i := (exec step s (as.take i)).getD s
  action i := as[i]?
  next i := by
    obtain ⟨u, hu⟩ := Option.isSome_iff_exists.mp h
    by_cases hi : i < as.length
    · right
      rw [← List.take_append_drop (i + 1) as] at hu
      obtain ⟨t, ht, -⟩ := exec_append_eq_some.mp hu
      have hsplit : as.take (i + 1) = as.take i ++ [as[i]] := (List.take_append_getElem hi).symm
      rw [hsplit] at ht
      obtain ⟨t', ht', hlast⟩ := exec_append_eq_some.mp ht
      obtain ⟨t'', hstep, hend⟩ := exec_cons_eq_some.mp hlast
      obtain rfl : t'' = t := Option.some.inj hend
      refine ⟨as[i], List.getElem?_eq_getElem hi, ?_⟩
      rw [hsplit, ht, ht']
      exact hstep
    · left
      rw [not_lt] at hi
      rw [List.take_of_length_le hi, List.take_of_length_le (Nat.le_succ_of_le hi)]
      exact ⟨List.getElem?_eq_none hi, rfl⟩

/-- Such a run is fair if no action from `p` is enabled at its end. -/
theorem ofExec_fair {s t : σ} {as : List α} {p : α → Prop} (h : (exec step s as).isSome)
    (hend : exec step s as = some t) (hstuck : ∀ a, p a → step t a = none) :
    (ofExec step s as h).Fair p := by
  intro i
  refine ⟨max i as.length, le_max_left _ _, .inr ?_⟩
  have hstate : (ofExec step s as h).state (max i as.length) = t := by
    dsimp only [ofExec]
    rw [List.take_of_length_le (le_max_right _ _), hend]
    rfl
  rwa [hstate]

/-- What every step preserves holds from any state on. -/
theorem invariant (r : InfiniteRun step) {Inv : σ → Prop}
    (hstep : ∀ {s a t}, Inv s → step s a = some t → Inv t) {i j : ℕ} (hij : i ≤ j)
    (hi : Inv (r.state i)) : Inv (r.state j) := by
  induction j, hij using Nat.le_induction with
  | base => exact hi
  | succ j _ ih =>
      rcases r.next j with ⟨-, hsame⟩ | ⟨a, -, ha⟩
      · rwa [hsame]
      · exact hstep ih ha

section
variable {Inv goal : σ → Prop} {p : α → Prop} {rank : σ → ℕ}

/-- As long as the goal is not reached the rank does not rise. -/
theorem rank_le_of_not_goal (r : InfiniteRun step)
    (hinv : ∀ {s a t}, Inv s → step s a = some t → Inv t)
    (hle : ∀ {s a t}, Inv s → ¬ goal s → step s a = some t → goal t ∨ rank t ≤ rank s)
    {i j : ℕ} (hij : i ≤ j) (hi : Inv (r.state i)) (hnot : ∀ k, i ≤ k → ¬ goal (r.state k)) :
    rank (r.state j) ≤ rank (r.state i) := by
  induction j, hij using Nat.le_induction with
  | base => exact le_rfl
  | succ j hij ih =>
      rcases r.next j with ⟨-, hsame⟩ | ⟨a, -, ha⟩
      · rwa [hsame]
      · rcases hle (r.invariant hinv hij hi) (hnot j hij) ha with hgoal | hrank
        · exact absurd hgoal (hnot (j + 1) (Nat.le_succ_of_le hij))
        · exact hrank.trans ih

/-- **Progress.** A fair run comes to the goal when, short of it, some own action is enabled,
every own action lowers the rank and no other one raises it. -/
theorem eventually_of_rank (r : InfiniteRun step) (hfair : r.Fair p) (Inv goal : σ → Prop)
    (rank : σ → ℕ) (hinv : ∀ {s a t}, Inv s → step s a = some t → Inv t)
    (henabled : ∀ {s}, Inv s → ¬ goal s → ∃ a, p a ∧ step s a ≠ none)
    (hown : ∀ {s a t}, Inv s → ¬ goal s → p a → step s a = some t → goal t ∨ rank t < rank s)
    (hother : ∀ {s a t}, Inv s → ¬ goal s → ¬ p a → step s a = some t →
      goal t ∨ rank t ≤ rank s)
    {i : ℕ} (hi : Inv (r.state i)) : ∃ j ≥ i, goal (r.state j) := by
  have hle : ∀ {s a t}, Inv s → ¬ goal s → step s a = some t → goal t ∨ rank t ≤ rank s := by
    intro s a t hs hnot ha
    by_cases hp : p a
    · exact (hown hs hnot hp ha).imp_right le_of_lt
    · exact hother hs hnot hp ha
  -- By induction on the rank at `i`: fairness leads to an own action, which lowers it.
  induction hn : rank (r.state i) using Nat.strong_induction_on generalizing i with
  | _ n ih =>
      by_contra hnot
      push Not at hnot
      obtain ⟨j, hij, hj⟩ := hfair i
      have hinvj := r.invariant hinv hij hi
      have hrank := r.rank_le_of_not_goal hinv hle hij hi hnot
      rcases hj with ⟨a, hp, ha⟩ | hstuck
      · rcases r.next j with ⟨hnone, -⟩ | ⟨b, hb, hstep⟩
        · rw [hnone] at ha
          cases ha
        · obtain rfl : a = b := Option.some.inj (ha.symm.trans hb)
          rcases hown hinvj (hnot j hij) hp hstep with hgoal | hlt
          · exact hnot (j + 1) (Nat.le_succ_of_le hij) hgoal
          · obtain ⟨k, hjk, hgoal⟩ :=
              ih _ (hlt.trans_le (hrank.trans_eq hn)) (hinv hinvj hstep) rfl
            exact hnot k (hij.trans (Nat.le_of_succ_le hjk)) hgoal
      · obtain ⟨a, hp, hstep⟩ := henabled hinvj (hnot j hij)
        exact hstep (hstuck a hp)

end

end InfiniteRun

end RtBoot
