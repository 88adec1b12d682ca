import Mathlib.Algebra.Group.Nat.Even
import RtBoot.LinuxParams

/-!
# Where the Command Line is Cut

`linux_params_init` looks for the next blank and the next quote, and while the quote comes
first goes on behind the quote that closes it; for every argument it begins anew. What it
does can be said without running it: a blank is a cut if an even number of quotes stands
before it in the whole line.

The two agree because an argument begins behind a cut, where the number of quotes is even
again, so that counting from there or from the beginning of the line makes no difference.

## Main results

* `firstCut_skipQuotes`: the loop over quotes finds the first cut.
* `isCut_cmdlineArgs_iff`: the arguments are separated by the cuts.
* `linux_params_tokens`: **the law of the arguments**, for `linux_params_init`.
-/

namespace RtBoot

/-! ### Cuts -/

/-- The number of quotes before position `i`. -/
def quotesBefore (text : List UInt8) (i : ℕ) : ℕ :=
  (text.take i).count 34

/-- A blank with an even number of quotes before it. -/
def IsCut (text : List UInt8) (i : ℕ) : Prop :=
  text[i]? = some 32 ∧ Even (quotesBefore text i)
  deriving Decidable

section
variable {text : List UInt8} {p i : ℕ}

theorem quotesBefore_succ (text : List UInt8) (i : ℕ) :
    quotesBefore text (i + 1) = quotesBefore text i + if text[i]? = some 34 then 1 else 0 := by
  rw [quotesBefore, List.take_add_one, List.count_append, ← quotesBefore]
  cases h : text[i]? with
  | none => simp
  | some c => simp [List.count_singleton]

/-- Where no quote stands, the number does not change. -/
theorem quotesBefore_eq (hle : p ≤ i) (h : ∀ j, p ≤ j → j < i → text[j]? ≠ some 34) :
    quotesBefore text i = quotesBefore text p := by
  induction i, hle using Nat.le_induction with
  | base => rfl
  | succ i hle ih =>
      rw [quotesBefore_succ, if_neg (h i hle (Nat.lt_succ_self i)),
        ih fun j hj hlt => h j hj (Nat.lt_succ_of_lt hlt)]
      rfl

/-- The position found is the first. -/
theorem rtStrchr_eq_some {c : UInt8} (h : rtStrchr text p c = some i) :
    p ≤ i ∧ text[i]? = some c ∧ ∀ j, p ≤ j → j < i → text[j]? ≠ some c := by
  obtain ⟨k, hk, rfl⟩ := Option.map_eq_some_iff.mp h
  obtain ⟨hlt, hbyte, hfirst⟩ := List.findIdx?_eq_some_iff_getElem.mp hk
  rw [List.length_drop] at hlt
  refine ⟨Nat.le_add_left p k, ?_, ?_⟩
  · rw [List.getElem?_eq_getElem (by omega)]
    simpa [Nat.add_comm] using hbyte
  · intro j hj hjlt hc
    have hnot := hfirst (j - p) (by omega)
    obtain ⟨hjlen, hget⟩ := List.getElem?_eq_some_iff.mp hc
    simp only [List.getElem_drop, Nat.add_sub_cancel' hj, hget, beq_self_eq_true] at hnot
    exact absurd hnot (by simp)

theorem rtStrchr_eq_none {c : UInt8} (h : rtStrchr text p c = none) :
    ∀ j, p ≤ j → text[j]? ≠ some c := by
  intro j hj hc
  have hnone := List.findIdx?_eq_none_iff.mp (Option.map_eq_none_iff.mp h) c
    (List.mem_of_getElem? (i := j - p) (by rw [List.getElem?_drop, Nat.add_sub_cancel' hj, hc]))
  simp at hnone

/-- The first cut, or none if there is none. -/
def FirstCut (text : List UInt8) : Option ℕ → Prop
  | some n => IsCut text n ∧ ∀ i < n, ¬ IsCut text i
  | none => ∀ i, ¬ IsCut text i

/-- Up to the next blank there is no cut. -/
theorem not_isCut_of_lt {n : ℕ} (hbefore : ∀ i < p, ¬ IsCut text i)
    (hblank : ∀ j, p ≤ j → j < n → text[j]? ≠ some 32) : ∀ i < n, ¬ IsCut text i := by
  intro i hi hcut
  rcases Nat.lt_or_ge i p with hlt | hge
  · exact hbefore i hlt hcut
  · exact hblank i hge hi hcut.1

/-- Behind a quote, and as long as it is not closed, the number is odd. -/
theorem quotesBefore_quoted {q : ℕ} (hquote : rtStrchr text p 34 = some q) (hi : q < i)
    (hopen : ∀ j, q < j → j < i → text[j]? ≠ some 34) :
    quotesBefore text i = quotesBefore text p + 1 := by
  obtain ⟨hle, hq, hfirst⟩ := rtStrchr_eq_some hquote
  rw [quotesBefore_eq (p := q + 1) hi hopen, quotesBefore_succ, if_pos hq,
    quotesBefore_eq hle hfirst]

/-- Up to the end of a quoted part there is no cut, if it begins before the next blank. -/
theorem not_isCut_quoted {q n : ℕ} (hquote : rtStrchr text p 34 = some q)
    (hnext : rtStrchr text p 32 = some n) (hlt : q < n) (heven : Even (quotesBefore text p))
    (hbefore : ∀ i < p, ¬ IsCut text i) (hopen : ∀ j, q < j → j < i → text[j]? ≠ some 34) :
    ¬ IsCut text i := by
  obtain ⟨-, -, hblank⟩ := rtStrchr_eq_some hnext
  rcases Nat.lt_or_ge q i with hi | hi
  · intro hcut
    have hodd := hcut.2
    rw [quotesBefore_quoted hquote hi hopen, Nat.even_add_one] at hodd
    exact hodd heven
  · exact not_isCut_of_lt hbefore hblank i (by omega)

/-- **The loop over quotes finds the first cut**, if it begins where the number of quotes is
even and no cut has been passed. -/
theorem firstCut_skipQuotes {quote next : Option ℕ} (hquote : rtStrchr text p 34 = quote)
    (hnext : rtStrchr text p 32 = next) (heven : Even (quotesBefore text p))
    (hbefore : ∀ i < p, ¬ IsCut text i) : FirstCut text (skipQuotes text quote next) := by
  fun_induction skipQuotes text quote next generalizing p with
  | case1 n q hlt hright =>
      intro i
      exact not_isCut_quoted hquote hnext hlt heven hbefore
        fun j hj _ => rtStrchr_eq_none hright j hj
  | case2 n q hlt right hright ih =>
      obtain ⟨hle, hclosed, hopen⟩ := rtStrchr_eq_some hright
      refine ih rfl rfl ?_ fun i hi => ?_
      · rw [quotesBefore_succ, if_pos hclosed, quotesBefore_quoted hquote hle hopen, Nat.add_assoc]
        exact heven.add even_two
      · exact not_isCut_quoted hquote hnext hlt heven hbefore
          fun j hj hjlt => hopen j hj (by omega)
  | case3 n q hge =>
      obtain ⟨hle, hn, hblank⟩ := rtStrchr_eq_some hnext
      obtain ⟨-, -, hfirst⟩ := rtStrchr_eq_some hquote
      refine ⟨⟨hn, ?_⟩, not_isCut_of_lt hbefore hblank⟩
      rwa [quotesBefore_eq hle fun j hj hlt => hfirst j hj (by omega)]
  | case4 quote next hother =>
      cases next with
      | none =>
          intro i
          exact not_isCut_of_lt hbefore (fun j hj _ => rtStrchr_eq_none hnext j hj) i
            (Nat.lt_succ_self i)
      | some n =>
          cases quote with
          | some q => exact (hother n q rfl rfl).elim
          | none =>
              obtain ⟨hle, hn, hblank⟩ := rtStrchr_eq_some hnext
              refine ⟨⟨hn, ?_⟩, not_isCut_of_lt hbefore hblank⟩
              rwa [quotesBefore_eq hle fun j hj _ => rtStrchr_eq_none hquote j hj]

/-- An argument ends at the first cut, or at the end of the line. -/
theorem firstCut_argLength (text : List UInt8) :
    (∀ i < argLength text, ¬ IsCut text i) ∧
      (argLength text < text.length → IsCut text (argLength text)) := by
  have hfirst : FirstCut text (skipQuotes text (rtStrchr text 0 34) (rtStrchr text 0 32)) :=
    firstCut_skipQuotes rfl rfl (by simp [quotesBefore]) fun i hi => absurd hi (Nat.not_lt_zero i)
  rw [argLength]
  cases h : skipQuotes text (rtStrchr text 0 34) (rtStrchr text 0 32) with
  | none =>
      rw [h] at hfirst
      exact ⟨fun i _ => hfirst i, fun hlt => absurd hlt (Nat.lt_irrefl _)⟩
  | some n =>
      rw [h] at hfirst
      exact ⟨hfirst.2, fun _ => hfirst.1⟩

/-- Behind a cut, the cuts of the rest are the cuts of the line. -/
theorem isCut_drop {n : ℕ} (h : IsCut text n) (i : ℕ) :
    IsCut (text.drop (n + 1)) i ↔ IsCut text (n + 1 + i) := by
  have hquotes : quotesBefore text (n + 1 + i) =
      quotesBefore text n + quotesBefore (text.drop (n + 1)) i := by
    have hblank : ¬ text[n]? = some 34 := by
      rw [h.1]
      decide
    rw [quotesBefore, List.take_add, List.count_append, ← quotesBefore, ← quotesBefore,
      quotesBefore_succ, if_neg hblank, Nat.add_zero]
  rw [IsCut, IsCut, List.getElem?_drop, hquotes, Nat.even_add, iff_true_left h.2]

end

/-! ### The arguments -/

/-- The position behind argument `k`, when the arguments stand one behind the other with a
blank between them. -/
def cutAfter (args : List CString) (k : ℕ) : ℕ :=
  ((args.take (k + 1)).map CString.strlen).sum + k

/-- The arguments with a blank between them. -/
def joinArgs (args : List CString) : List UInt8 :=
  [32].intercalate (args.map CString.bytes)

theorem cutAfter_zero (t : CString) (args : List CString) : cutAfter (t :: args) 0 = t.strlen := by
  simp [cutAfter]

theorem cutAfter_succ (t : CString) (args : List CString) (k : ℕ) :
    cutAfter (t :: args) (k + 1) = t.strlen + 1 + cutAfter args k := by
  simp only [cutAfter, List.take_succ_cons, List.map_cons, List.sum_cons]
  omega

theorem joinArgs_cons (t : CString) {args : List CString} (h : args ≠ []) :
    joinArgs (t :: args) = t.bytes ++ 32 :: joinArgs args := by
  obtain ⟨t', args, rfl⟩ := List.exists_cons_of_ne_nil h
  simp [joinArgs, List.intercalate]

theorem cmdlineArgs_eq_nil_iff {cmdline : CString} :
    cmdlineArgs cmdline = [] ↔ cmdline.bytes = [] := by
  rw [cmdlineArgs]
  split
  · next h => simp [h]
  · next h => simp [h]

/-- A line without a cut is one argument. -/
theorem cmdlineArgs_of_argLength {cmdline : CString} (hne : cmdline.bytes ≠ [])
    (h : ¬ argLength cmdline.bytes < cmdline.strlen) : cmdlineArgs cmdline = [cmdline] := by
  have hlen : argLength cmdline.bytes = cmdline.bytes.length :=
    Nat.le_antisymm (argLength_le _) (Nat.not_lt.mp h)
  have htake : cmdline.take (argLength cmdline.bytes) = cmdline :=
    CString.ext (by rw [CString.take_bytes, hlen, List.take_length])
  have hrest : (afterArg cmdline).bytes = [] := by
    rw [afterArg, if_neg h, CString.drop_bytes, hlen, List.drop_length]
  rw [cmdlineArgs, if_neg hne, htake, cmdlineArgs_eq_nil_iff.mpr hrest]

/-- **Induction over the arguments of a line**: it is empty, or has no cut, or is an
argument, a blank that is the first cut, and a rest. -/
@[elab_as_elim]
theorem cutInduction {motive : CString → Prop}
    (empty : ∀ c : CString, c.bytes = [] → cmdlineArgs c = [] → motive c)
    (last : ∀ c : CString, (∀ i, ¬ IsCut c.bytes i) → cmdlineArgs c = [c] → motive c)
    (cut : ∀ c t rest : CString, c.bytes = t.bytes ++ 32 :: rest.bytes →
      IsCut c.bytes t.strlen → (∀ i < t.strlen, ¬ IsCut c.bytes i) →
      (∀ i, IsCut rest.bytes i ↔ IsCut c.bytes (t.strlen + 1 + i)) →
      cmdlineArgs c = t :: cmdlineArgs rest → motive rest → motive c)
    (cmdline : CString) : motive cmdline := by
  induction hn : cmdline.strlen using Nat.strong_induction_on generalizing cmdline with
  | h n ih =>
      by_cases hnil : cmdline.bytes = []
      · exact empty cmdline hnil (cmdlineArgs_eq_nil_iff.mpr hnil)
      obtain ⟨hbefore, hcut⟩ := firstCut_argLength cmdline.bytes
      by_cases hlt : argLength cmdline.bytes < cmdline.strlen
      · have htake : (cmdline.take (argLength cmdline.bytes)).strlen = argLength cmdline.bytes :=
          List.length_take_of_le (argLength_le cmdline.bytes)
        have hafter : afterArg cmdline = cmdline.drop (argLength cmdline.bytes + 1) := by
          rw [afterArg, if_pos hlt]
        have hpos : 0 < cmdline.strlen := Nat.zero_lt_of_lt hlt
        have hbytes : cmdline.bytes = cmdline.bytes.take (argLength cmdline.bytes) ++
            32 :: cmdline.bytes.drop (argLength cmdline.bytes + 1) := by
          obtain ⟨hlen, hblank⟩ := List.getElem?_eq_some_iff.mp (hcut hlt).1
          rw [← hblank, ← List.drop_eq_getElem_cons hlen, List.take_append_drop]
        refine cut cmdline (cmdline.take (argLength cmdline.bytes)) (afterArg cmdline) ?_ ?_ ?_ ?_
          ?_ (ih _ (hn ▸ strlen_afterArg_lt hpos) _ rfl)
        · rw [hafter]
          exact hbytes
        · rw [htake]
          exact hcut hlt
        · rw [htake]
          exact hbefore
        · rw [htake, hafter]
          exact isCut_drop (hcut hlt)
        · rw [cmdlineArgs, if_neg hnil]
      · have hlen : argLength cmdline.bytes = cmdline.bytes.length :=
          Nat.le_antisymm (argLength_le _) (Nat.not_lt.mp hlt)
        refine last cmdline (fun i hi => ?_) (cmdlineArgs_of_argLength hnil hlt)
        obtain ⟨hi', -⟩ := List.getElem?_eq_some_iff.mp hi.1
        exact hbefore i (by omega) hi

/-- **The arguments are separated by the cuts**: the cuts of a line are the positions behind
its arguments, but for the end of the line. -/
theorem isCut_cmdlineArgs_iff (cmdline : CString) (i : ℕ) :
    IsCut cmdline.bytes i ↔
      i < cmdline.strlen ∧ ∃ k < (cmdlineArgs cmdline).length,
        i = cutAfter (cmdlineArgs cmdline) k := by
  induction cmdline using cutInduction generalizing i with
  | empty c hnil hargs => simp [IsCut, hnil, hargs]
  | last c hnone hargs =>
      rw [hargs]
      refine iff_of_false (hnone i) ?_
      rintro ⟨hlt, k, hk, rfl⟩
      obtain rfl : k = 0 := Nat.lt_one_iff.mp hk
      rw [cutAfter_zero] at hlt
      exact Nat.lt_irrefl _ hlt
  | cut c t rest hbytes hcut hbefore hrest hargs ih =>
      have hlen : c.strlen = t.strlen + 1 + rest.strlen := by
        rw [CString.strlen, hbytes, List.length_append, List.length_cons, Nat.add_assoc,
          Nat.add_comm 1]
        rfl
      rw [hargs, List.length_cons]
      rcases Nat.lt_trichotomy i t.strlen with hi | rfl | hi
      · refine iff_of_false (hbefore i hi) ?_
        rintro ⟨-, k, -, rfl⟩
        cases k with
        | zero => rw [cutAfter_zero] at hi; omega
        | succ k => rw [cutAfter_succ] at hi; omega
      · exact iff_of_true hcut ⟨by omega, 0, by omega, (cutAfter_zero ..).symm⟩
      · obtain ⟨j, rfl⟩ := Nat.exists_eq_add_of_lt hi
        rw [Nat.add_right_comm, ← hrest, ih]
        constructor
        · rintro ⟨hj, k, hk, rfl⟩
          exact ⟨by omega, k + 1, by omega, (cutAfter_succ ..).symm⟩
        · rintro ⟨hj, k, hk, hkeq⟩
          cases k with
          | zero => rw [cutAfter_zero] at hkeq; omega
          | succ k =>
              rw [cutAfter_succ] at hkeq
              exact ⟨by omega, k, by omega, by omega⟩

/-- The arguments give the line back, but for a blank at its end. -/
theorem joinArgs_cmdlineArgs (cmdline : CString) :
    cmdline.bytes = joinArgs (cmdlineArgs cmdline) ∨
      cmdline.bytes = joinArgs (cmdlineArgs cmdline) ++ [32] ∧
        IsCut cmdline.bytes (joinArgs (cmdlineArgs cmdline)).length := by
  induction cmdline using cutInduction with
  | empty c hnil hargs => exact .inl (by rw [hnil, hargs]; rfl)
  | last c hnone hargs => exact .inl (by rw [hargs]; simp [joinArgs, List.intercalate])
  | cut c t rest hbytes hcut hbefore hrest hargs ih =>
      rw [hargs, hbytes]
      by_cases hnil : rest.bytes = []
      · have hjoin : joinArgs (t :: cmdlineArgs rest) = t.bytes := by
          rw [cmdlineArgs_eq_nil_iff.mpr hnil]
          simp [joinArgs, List.intercalate]
        rw [hjoin]
        exact .inr ⟨by rw [hnil], hbytes ▸ hcut⟩
      · rw [joinArgs_cons t (mt cmdlineArgs_eq_nil_iff.mp hnil)]
        rcases ih with ih | ⟨ih, htail⟩
        · exact .inl (by rw [← ih])
        · refine .inr ⟨by rw [List.append_assoc, List.cons_append, ← ih], ?_⟩
          rw [hrest, hbytes] at htail
          rw [List.length_append, List.length_cons, ← Nat.add_assoc, Nat.add_right_comm]
          exact htail

/-! ### The law -/

/-- The line is these arguments, with a blank between them and perhaps one at its end, and
the blanks are the cuts. -/
structure CutAtBlanks (text : CString) (args : List CString) : Prop where
  joined : text.bytes = joinArgs args ∨
    text.bytes = joinArgs args ++ [32] ∧ IsCut text.bytes (joinArgs args).length
  cuts : ∀ i, IsCut text.bytes i ↔ i < text.strlen ∧ ∃ k < args.length, i = cutAfter args k

/-- **The law of the arguments.** For a command line with fewer than 511 arguments,
`linux_params_init` adds these, in order, before all else; where they fit into the address
space, each pointer of the table leads to its argument in the end. Joined with blanks the
arguments are the line, up to one blank at its end that is a cut, and the cuts are the
blanks with an even number of quotes before them in the whole line. -/
theorem linux_params_tokens (m : Mem) (systemMemsize start : BitVec 32) (cmdline : CString)
    (hargs : (cmdlineArgs cmdline).length < 511) :
    linuxParamsInit m systemMemsize start cmdline =
        finishParams systemMemsize cmdline ((cmdlineArgs cmdline).foldl addArg
          ((paramsStart m start).setArgv 0 0, addr start (4 * linuxMaxArgs))) ∧
      (paramsSize start (kernelArgs systemMemsize cmdline) [] ≤ 2 ^ 32 →
        ∀ q ∈ (linuxParamsInit m systemMemsize start cmdline).pointers.zip
            (kernelArgs systemMemsize cmdline),
          BytesAt (linuxParamsInit m systemMemsize start cmdline).mem q.1 q.2.cells) ∧
      CutAtBlanks cmdline (cmdlineArgs cmdline) := by
  refine ⟨?_, fun h32 => ?_, joinArgs_cmdlineArgs cmdline, isCut_cmdlineArgs_iff cmdline⟩
  · have hroom : ((paramsStart m start).setArgv 0 0).linuxArgc +
        (cmdlineArgs cmdline).length ≤ linuxMaxArgs := by
      have hmax : linuxMaxArgs = 512 := rfl
      have hstart : ((paramsStart m start).setArgv 0 0).linuxArgc = 1 := rfl
      omega
    rw [← argLoop_eq_foldl _ _ _ hroom]
    rfl
  · have hinit := envInv_linuxParamsInit m systemMemsize start cmdline (by omega) h32
    obtain ⟨-, -, hpointers⟩ := hinit.tables
    rw [List.map_nil, blockPointers, List.append_nil] at hpointers
    rw [hpointers]
    exact fun q hq => (forall_texts hinit.busy.argAreas.upper q hq).1

/-- The command line of two arguments, the second in quotes, is cut once. -/
theorem linux_params_tokens_quoted :
    cutAfter (cmdlineArgs quotedCmdline) 0 = 1 ∧ IsCut quotedCmdline.bytes 1 ∧
      CutAtBlanks quotedCmdline (cmdlineArgs quotedCmdline) := by
  refine ⟨by decide +kernel, by decide, ?_⟩
  exact (linux_params_tokens (memOf 0 []) 0x4000000 0x83e00000 quotedCmdline
    (by decide +kernel)).2.2

end RtBoot
