import Mathlib.Data.Nat.Bitwise

/-!
# Numbers by their highest bit, under exclusive or

The numbers with highest bit `i` stay together when they are combined with one
number `d` by exclusive or, and so do `0` and `1`. In which order these groups
come is told by the bits of `d`: first the groups of its set bits, downwards,
and then those of its clear bits, upwards.
-/

namespace Neatworks.XorOrder

/-- The highest bit of `x` is `i`. -/
structure Top (x i : Nat) : Prop where
  set : x.testBit i = true
  clear : ∀ j, i < j → x.testBit j = false

theorem top_log2 {x : Nat} (h : x ≠ 0) : Top x x.log2 := by
  refine ⟨Nat.testBit_log2 h, fun j hj => Nat.testBit_lt_two_pow ?_⟩
  exact (Nat.log2_lt h).mp hj

theorem Top.unique {x i j : Nat} (hi : Top x i) (hj : Top x j) : i = j := by
  rcases Nat.lt_trichotomy i j with hlt | heq | hgt
  · exact absurd hj.set (by simp [hi.clear j hlt])
  · exact heq
  · exact absurd hi.set (by simp [hj.clear i hgt])

/-- `x` is in the group of `i`; the group of `0` has `0` too. -/
def InGroup (x i : Nat) : Prop := Top x i ∨ i = 0 ∧ x = 0

theorem InGroup.clear {x i : Nat} (h : InGroup x i) {j : Nat} (hj : i < j) : x.testBit j = false := by
  rcases h with h | ⟨rfl, rfl⟩
  · exact h.clear j hj
  · exact Nat.zero_testBit j

theorem InGroup.set {x i : Nat} (h : InGroup x i) (hi : 0 < i) : x.testBit i = true :=
  (h.resolve_right fun h0 => Nat.ne_of_gt hi h0.1).set

/-- The group of `i` comes before the one of `j` when combined with `d`. -/
def Precedes (d i j : Nat) : Prop :=
  d.testBit i = true ∧ d.testBit j = true ∧ j < i ∨
  d.testBit i = true ∧ d.testBit j = false ∨
  d.testBit i = false ∧ d.testBit j = false ∧ i < j

theorem xor_lt_xor {d i j x y : Nat} (h : Precedes d i j) (hx : InGroup x i) (hy : InGroup y j) :
    x ^^^ d < y ^^^ d := by
  -- The two numbers agree above the higher of the bits and differ there.
  have habove : ∀ k, i < k → j < k → (x ^^^ d).testBit k = (y ^^^ d).testBit k := fun k hi hj => by
    rw [Nat.testBit_xor, Nat.testBit_xor, hx.clear hi, hy.clear hj]
  have hhigh : j < i → d.testBit i = true → x ^^^ d < y ^^^ d := by
    intro hji hd
    refine Nat.lt_of_testBit i ?_ ?_ fun k hk => habove k hk (Nat.lt_trans hji hk)
    · rw [Nat.testBit_xor, hx.set (Nat.zero_lt_of_lt hji), hd]
      rfl
    · rw [Nat.testBit_xor, hy.clear hji, hd]
      rfl
  have hlow : i < j → d.testBit j = false → x ^^^ d < y ^^^ d := by
    intro hij hd
    refine Nat.lt_of_testBit j ?_ ?_ fun k hk => habove k (Nat.lt_trans hij hk) hk
    · rw [Nat.testBit_xor, hx.clear hij, hd]
      rfl
    · rw [Nat.testBit_xor, hy.set (Nat.zero_lt_of_lt hij), hd]
      rfl
  rcases h with ⟨hi, hj, hlt⟩ | ⟨hi, hj⟩ | ⟨hi, hj, hlt⟩
  · exact hhigh hlt hi
  · rcases Nat.lt_trichotomy i j with hlt | rfl | hgt
    · exact hlow hlt hj
    · rw [hi] at hj
      cases hj
    · exact hhigh hgt hi
  · exact hlow hlt hj

/-- The set bits of `d` up to `top`, downwards, and its clear bits below `bits`, upwards. -/
def visit (d top bits : Nat) : List Nat :=
  (List.range (top + 1)).reverse.filter (d.testBit ·) ++ (List.range bits).filter (!d.testBit ·)

theorem visit_pairwise (d top bits : Nat) : (visit d top bits).Pairwise (Precedes d) := by
  unfold visit
  refine List.pairwise_append.mpr ⟨?_, ?_, fun i hi j hj => ?_⟩
  · rw [List.pairwise_filter, List.pairwise_reverse]
    exact List.pairwise_lt_range.imp fun hlt hi hj => Or.inl ⟨hi, hj, hlt⟩
  · rw [List.pairwise_filter]
    refine List.pairwise_lt_range.imp fun hlt hi hj => Or.inr (Or.inr ⟨?_, ?_, hlt⟩)
    · simpa using hi
    · simpa using hj
  · have hset := (List.mem_filter.mp hi).2
    have hclear := (List.mem_filter.mp hj).2
    exact Or.inr (Or.inl ⟨hset, by simpa using hclear⟩)

/-- Every group below `bits` is visited, if `top` is above the set bits of `d`. -/
theorem mem_visit {d top bits i : Nat} (htop : ∀ j, d.testBit j = true → j ≤ top) (hi : i < bits) :
    i ∈ visit d top bits := by
  unfold visit
  by_cases hd : d.testBit i = true
  · refine List.mem_append_left _ (List.mem_filter.mpr ⟨?_, hd⟩)
    rw [List.mem_reverse, List.mem_range]
    exact Nat.lt_succ_of_le (htop i hd)
  · refine List.mem_append_right _ (List.mem_filter.mpr ⟨List.mem_range.mpr hi, ?_⟩)
    simpa using hd

theorem mem_visit_lt {d top bits i : Nat} (hd : top < bits) (hi : i ∈ visit d top bits) : i < bits := by
  unfold visit at hi
  rcases List.mem_append.mp hi with hi | hi
  · have := (List.mem_filter.mp hi).1
    rw [List.mem_reverse, List.mem_range] at this
    exact Nat.lt_of_lt_of_le this hd
  · exact List.mem_range.mp (List.mem_filter.mp hi).1

end Neatworks.XorOrder
