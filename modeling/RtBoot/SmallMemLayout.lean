import Mathlib.Data.List.Chain
import RtBoot.SmallMem

/-!
# The Layout of the System Heap

The heap as a list of blocks. A free block is its size; a block in use is what stands in its data
area. Offsets are sums of sizes.

## Main definitions

* `live`: the blocks in use, with the offsets of their data areas. They are apart from each other
  (`pairwise_live`).
* `Merged`: no two free blocks stand one behind the other.
* `LowFree`: where `lfree` may point. It need not be the lowest free block: `rt_realloc` makes a
  free block of the end of a block and leaves `lfree` as it is.
-/

namespace RtBoot

namespace SmallMem

/-! ### Blocks -/

/-- A block: free, or in use and with these bytes in its data area. -/
inductive Block
  | free (size : ℕ)
  | used (content : List (BitVec 8))
  deriving DecidableEq, Repr

namespace Block

/-- The bytes from a header to the next one. -/
def size : Block → ℕ
  | .free size => size
  | .used content => sizeofStructMem + content.length

/-- The `used` field. -/
def flag : Block → BitVec 16
  | .free _ => 0
  | .used _ => 1

/-- What the owner of the block has stored. -/
def content : Block → List (BitVec 8)
  | .free _ => []
  | .used content => content

@[simp] theorem size_free (n : ℕ) : (free n).size = n := rfl
@[simp] theorem size_used (c : List (BitVec 8)) : (used c).size = 16 + c.length := rfl
@[simp] theorem flag_free (n : ℕ) : (free n).flag = 0 := rfl
@[simp] theorem flag_used (c : List (BitVec 8)) : (used c).flag = 1 := rfl

theorem flag_used_ne (c : List (BitVec 8)) : (used c).flag ≠ 0 := by
  rw [flag_used]
  decide

/-- A byte of the data area lies inside the block. -/
theorem lt_size {b : Block} {i : ℕ} {c : BitVec 8} (hc : b.content[i]? = some c) :
    sizeofStructMem + i < b.size := by
  have hi : i < b.content.length := (List.getElem?_eq_some_iff.mp hc).1
  cases b with
  | free n => simp [content] at hi
  | used content => exact Nat.add_lt_add_left hi _

end Block

/-- The bytes that blocks take. -/
def total (bs : List Block) : ℕ :=
  (bs.map Block.size).sum

@[simp] theorem total_nil : total [] = 0 := rfl

@[simp] theorem total_cons (b : Block) (bs : List Block) : total (b :: bs) = b.size + total bs :=
  rfl

@[simp] theorem total_append (bs cs : List Block) : total (bs ++ cs) = total bs + total cs := by
  simp [total]

/-! ### Blocks in use -/

/-- The blocks in use, from the offset `p` on: where the data area stands, and what is in it. -/
def live : (p : ℕ) → List Block → List (ℕ × List (BitVec 8))
  | _, [] => []
  | p, .free n :: bs => live (p + n) bs
  | p, .used c :: bs => (p + sizeofStructMem, c) :: live (p + (Block.used c).size) bs

section
variable {xs ys bs : List Block} {p m n l : ℕ} {c c' : List (BitVec 8)}

@[simp] theorem live_nil : live p [] = [] := rfl
@[simp] theorem live_free : live p (.free n :: bs) = live (p + n) bs := rfl
@[simp] theorem live_used :
    live p (.used c :: bs) = (p + 16, c) :: live (p + (16 + c.length)) bs := rfl

@[simp] theorem live_append : live p (xs ++ ys) = live p xs ++ live (p + total xs) ys := by
  induction xs generalizing p with
  | nil => simp
  | cons b xs ih =>
      cases b with
      | free n => simp [ih, Nat.add_assoc]
      | used c => simp [ih, Nat.add_assoc]

/-- The blocks in use lie behind the offset, each with a header in front. -/
theorem le_of_mem_live {x : ℕ × List (BitVec 8)} (h : x ∈ live p bs) : p + 16 ≤ x.1 := by
  induction bs generalizing p with
  | nil => simp at h
  | cons b bs ih =>
      cases b with
      | free n =>
          have := ih h
          omega
      | used c =>
          rcases List.mem_cons.mp h with rfl | h
          · exact le_refl _
          · have := ih h
            omega

/-- The blocks in use stand one behind the other, with a header between any two of them. -/
theorem pairwise_live :
    (live p bs).Pairwise fun x y => x.1 + x.2.length + 16 ≤ y.1 := by
  induction bs generalizing p with
  | nil => exact .nil
  | cons b bs ih =>
      cases b with
      | free n => exact ih
      | used c =>
          refine .cons (fun y hy => ?_) ih
          have := le_of_mem_live hy
          rw [Block.size_used] at this
          dsimp only [sizeofStructMem]
          omega

/-- A block in use is one of the list. -/
theorem exists_append_of_mem_live {q : ℕ} (h : (q, c) ∈ live p bs) :
    ∃ xs ys, bs = xs ++ .used c :: ys ∧ q = p + total xs + 16 := by
  induction bs generalizing p with
  | nil => simp at h
  | cons b bs ih =>
      cases b with
      | free n =>
          obtain ⟨xs, ys, rfl, rfl⟩ := ih h
          exact ⟨.free n :: xs, ys, rfl, by simp [Nat.add_assoc]⟩
      | used d =>
          rw [live_used, List.mem_cons, Prod.mk.injEq] at h
          rcases h with ⟨rfl, rfl⟩ | h
          · exact ⟨[], bs, rfl, rfl⟩
          · obtain ⟨xs, ys, rfl, rfl⟩ := ih h
            exact ⟨.used d :: xs, ys, rfl, by simp [Nat.add_assoc]⟩

/-! ### Free blocks -/

/-- A free block stands at the offset. -/
inductive FreeAt : List Block → ℕ → Prop
  | here (n : ℕ) (bs : List Block) : FreeAt (.free n :: bs) 0
  | there (b : Block) {bs : List Block} {p : ℕ} : FreeAt bs p → FreeAt (b :: bs) (b.size + p)

theorem FreeAt.append (h : FreeAt ys p) (xs : List Block) : FreeAt (xs ++ ys) (total xs + p) := by
  induction xs with
  | nil => rwa [total_nil, Nat.zero_add]
  | cons b xs ih =>
      rw [total_cons, Nat.add_assoc]
      exact .there b ih

theorem freeAt_append :
    FreeAt (xs ++ ys) p ↔ FreeAt xs p ∨ ∃ q, p = total xs + q ∧ FreeAt ys q := by
  constructor
  · intro h
    induction xs generalizing p with
    | nil => exact .inr ⟨p, (Nat.zero_add p).symm, h⟩
    | cons b xs ih =>
        cases h with
        | here n => exact .inl (.here n xs)
        | there _ h =>
            rcases ih h with h | ⟨q, rfl, hq⟩
            · exact .inl (.there b h)
            · exact .inr ⟨q, by rw [total_cons, Nat.add_assoc], hq⟩
  · rintro (h | ⟨q, rfl, h⟩)
    · induction h with
      | here n bs => exact .here n _
      | there b _ ih => exact .there b ih
    · exact h.append xs

/-- A free block at or behind the offset where a list is cut stands in the second part. -/
theorem exists_append_of_total_le {low high : List Block}
    (h : low ++ high = xs ++ .free n :: ys) (hn : 0 < n) (hle : total low ≤ total xs) :
    ∃ zs, xs = low ++ zs ∧ high = zs ++ .free n :: ys := by
  rcases List.append_eq_append_iff.mp h with ⟨zs, rfl, rfl⟩ | ⟨zs, rfl, hhigh⟩
  · exact ⟨zs, rfl, rfl⟩
  · cases zs with
    | nil => exact ⟨[], by simp, hhigh.symm⟩
    | cons b zs =>
        obtain ⟨rfl, -⟩ := List.cons.inj hhigh
        simp only [total_append, total_cons, Block.size_free] at hle
        omega

/-- Where `lfree` may point: to a free block, or to the end of the heap if there is a block in
use. -/
def LowFree (bs : List Block) (p : ℕ) : Prop :=
  FreeAt bs p ∨ p = total bs ∧ live 0 bs ≠ []

theorem FreeAt.exists_append (h : FreeAt bs l) :
    ∃ xs n ys, bs = xs ++ .free n :: ys ∧ l = total xs := by
  induction h with
  | here n bs => exact ⟨[], n, bs, rfl, rfl⟩
  | there b _ ih =>
      obtain ⟨xs, n, ys, rfl, rfl⟩ := ih
      exact ⟨b :: xs, n, ys, rfl, rfl⟩

/-- `lfree` stands between two blocks. -/
theorem LowFree.exists_append (h : LowFree bs l) : ∃ xs ys, bs = xs ++ ys ∧ l = total xs := by
  rcases h with h | ⟨rfl, -⟩
  · obtain ⟨xs, n, ys, rfl, rfl⟩ := h.exists_append
    exact ⟨xs, .free n :: ys, rfl, rfl⟩
  · exact ⟨bs, [], (List.append_nil bs).symm, rfl⟩

theorem lowFree_at : LowFree (xs ++ .free n :: ys) (total xs) :=
  .inl (FreeAt.append (.here n ys) xs)

theorem LowFree.join (h : LowFree (xs ++ .free m :: .free n :: ys) l) :
    LowFree (xs ++ .free (m + n) :: ys) (if l = total xs + m then total xs else l) := by
  by_cases hl : l = total xs + m
  · rw [if_pos hl]
    exact lowFree_at
  rw [if_neg hl]
  rcases h with h | ⟨rfl, hlive⟩
  · rcases freeAt_append.mp h with h | ⟨q, rfl, _ | ⟨_, _ | ⟨_, hq⟩⟩⟩
    · exact .inl (freeAt_append.mpr (.inl h))
    · exact lowFree_at
    · exact absurd rfl hl
    · left
      have hthere := (hq.there (.free (m + n))).append xs
      rwa [Block.size_free, Nat.add_assoc m] at hthere
  · right
    simp only [live_append, live_free, ← Nat.add_assoc, total_append, total_cons,
      Block.size_free] at hlive ⊢
    exact ⟨trivial, hlive⟩

/-- A free block becomes one that is in use, and others. -/
theorem LowFree.take (h : LowFree (xs ++ .free n :: ys) l) (hl : l ≠ total xs) {rest : List Block}
    (hn : total (.used c :: rest) = n) : LowFree (xs ++ .used c :: (rest ++ ys)) l := by
  subst hn
  rcases h with h | ⟨rfl, -⟩
  · left
    rcases freeAt_append.mp h with h | ⟨q, rfl, _ | ⟨_, hq⟩⟩
    · exact freeAt_append.mpr (.inl h)
    · exact absurd rfl hl
    · exact (hq.append (.used c :: rest)).append xs
  · right
    simp [Nat.add_assoc]

/-- A block is released. -/
theorem LowFree.release (h : LowFree (xs ++ .used c :: ys) l) :
    LowFree (xs ++ .free (16 + c.length) :: ys) (if total xs < l then total xs else l) := by
  by_cases hl : total xs < l
  · rw [if_pos hl]
    exact lowFree_at
  rw [if_neg hl]
  rcases h with h | ⟨rfl, -⟩
  · rcases freeAt_append.mp h with h | ⟨q, rfl, _ | ⟨_, h⟩⟩
    · exact .inl (freeAt_append.mpr (.inl h))
    · rw [Block.size_used] at hl
      omega
  · simp only [total_append, total_cons, Block.size_used] at hl
    omega

/-- The end of a block is released. -/
theorem LowFree.shrink (h : LowFree (xs ++ .used c :: ys) l)
    (hn : 16 + c'.length + n = 16 + c.length) : LowFree (xs ++ .used c' :: .free n :: ys) l := by
  rcases h with h | ⟨rfl, -⟩
  · left
    rcases freeAt_append.mp h with h | ⟨q, rfl, _ | ⟨_, hq⟩⟩
    · exact freeAt_append.mpr (.inl h)
    · have hthere := ((hq.there (.free n)).there (.used c')).append xs
      rwa [Block.size_free, ← Nat.add_assoc (Block.size _), Block.size_used, hn] at hthere
  · right
    simp only [total_append, total_cons, Block.size_used, Block.size_free]
    exact ⟨by omega, by simp⟩

/-- Where `lfree` may point does not depend on what is in the blocks. -/
theorem LowFree.store (h : LowFree (xs ++ .used c :: ys) l) (hlen : c'.length = c.length) :
    LowFree (xs ++ .used c' :: ys) l := by
  have hsize : (Block.used c).size = (Block.used c').size := by
    rw [Block.size_used, Block.size_used, hlen]
  rcases h with h | ⟨rfl, -⟩
  · left
    rcases freeAt_append.mp h with h | ⟨q, rfl, _ | ⟨_, hq⟩⟩
    · exact freeAt_append.mpr (.inl h)
    · rw [hsize]
      exact (hq.there (.used c')).append xs
  · right
    refine ⟨?_, by simp⟩
    rw [total_append, total_append, total_cons, total_cons, hsize]

/-! ### Neighbours -/

/-- No two free blocks stand one behind the other. -/
def Merged (bs : List Block) : Prop :=
  bs.IsChain fun b b' => b.flag ≠ 0 ∨ b'.flag ≠ 0

theorem merged_append_used : Merged (xs ++ .used c :: ys) ↔ Merged xs ∧ Merged ys := by
  simp [Merged, List.isChain_append, List.isChain_cons]

theorem merged_append_free :
    Merged (xs ++ .free n :: ys) ↔ Merged xs ∧ Merged ys ∧
      (∀ k, xs.getLast? ≠ some (.free k)) ∧ ∀ k, ys.head? ≠ some (.free k) := by
  have hflag : ∀ o : Option Block, (∀ b ∈ o, b.flag ≠ 0) ↔ ∀ k, o ≠ some (.free k) := by
    intro o
    rcases o with _ | (k | c)
    · simp
    · simp
    · simp
  simp only [Merged, List.isChain_append, List.isChain_cons, List.head?_cons, Option.mem_some_iff,
    forall_eq', Block.flag_free, ne_eq, not_true_eq_false, false_or, or_false]
  rw [← hflag, ← hflag]
  tauto

theorem merged_free :
    Merged (.free n :: ys) ↔ Merged ys ∧ ∀ k, ys.head? ≠ some (.free k) := by
  have h : Merged ([] ++ .free n :: ys) ↔ _ := merged_append_free
  simpa [Merged] using h

/-- When no block is in use, there is one free block. -/
theorem eq_free_of_live_nil (hlive : live p bs = []) (hm : Merged bs) (hbs : bs ≠ []) :
    bs = [.free (total bs)] := by
  match bs with
  | [] => exact absurd rfl hbs
  | [.free n] => rfl
  | .used c :: bs => simp at hlive
  | .free n :: .used c :: bs => simp at hlive
  | .free m :: .free n :: bs =>
      have hflag := (List.isChain_cons_cons.mp hm).1
      simp at hflag

theorem LowFree.eq_zero (h : LowFree [.free n] l) : l = 0 := by
  rcases h with (_ | ⟨_, ⟨⟩⟩) | ⟨-, h⟩
  · rfl
  · exact absurd rfl h

end

end SmallMem

end RtBoot
