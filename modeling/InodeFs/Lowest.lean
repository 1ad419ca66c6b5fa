import Mathlib.Data.Nat.Nth

/-!
# Handing out the lowest number first

An allocator that always hands out the least number still free gives out the elements of the free
set in increasing order.  `nthFree F k` is what it hands out after `k` numbers of `F` are gone.
-/

namespace Lowest

/-- The element of `F` with `k` elements of `F` below it. -/
noncomputable def nthFree (F : Finset ℕ) (k : ℕ) : ℕ := Nat.nth (· ∈ F) k

/-- The elements of `F` but the `k` least. -/
noncomputable def remaining (F : Finset ℕ) (k : ℕ) : Finset ℕ :=
  F \ (Finset.range k).image (nthFree F)

variable {F : Finset ℕ} {j k x : ℕ}

theorem finite_mem (F : Finset ℕ) : (Set.ofPred (· ∈ F)).Finite := F.finite_toSet

theorem toFinset_mem (F : Finset ℕ) (hf : (Set.ofPred (· ∈ F)).Finite) : hf.toFinset = F := by
  ext x
  exact Set.Finite.mem_toFinset hf

theorem nthFree_mem (hk : k < F.card) : nthFree F k ∈ F :=
  Nat.nth_mem (p := (· ∈ F)) k fun hf => by rwa [toFinset_mem]

theorem nthFree_lt (hjk : j < k) (hk : k < F.card) : nthFree F j < nthFree F k :=
  Nat.nth_lt_nth' (p := (· ∈ F)) hjk fun hf => by rwa [toFinset_mem]

theorem nthFree_inj (hj : j < F.card) (hk : k < F.card) (h : nthFree F j = nthFree F k) :
    j = k := by
  rcases Nat.lt_trichotomy j k with hlt | heq | hgt
  · exact absurd h (nthFree_lt hlt hk).ne
  · exact heq
  · exact absurd h (nthFree_lt hgt hj).ne'

theorem exists_nthFree (hx : x ∈ F) : ∃ k < F.card, nthFree F k = x := by
  obtain ⟨k, hk, he⟩ := Nat.exists_lt_card_nth_eq (p := (· ∈ F)) hx
  exact ⟨k, by simpa only [toFinset_mem] using hk (finite_mem F), he⟩

theorem mem_remaining : x ∈ remaining F k ↔ x ∈ F ∧ ∀ j < k, x ≠ nthFree F j := by
  simp only [remaining, Finset.mem_sdiff, Finset.mem_image, Finset.mem_range, not_exists, not_and]
  exact and_congr_right fun _ => forall₂_congr fun j _ => ⟨Ne.symm, Ne.symm⟩

theorem card_image_nthFree (hk : k ≤ F.card) :
    ((Finset.range k).image (nthFree F)).card = k := by
  rw [Finset.card_image_of_injOn, Finset.card_range]
  intro a ha b hb hab
  have ha' := Finset.mem_range.mp ha
  have hb' := Finset.mem_range.mp hb
  exact nthFree_inj (by omega) (by omega) hab

theorem card_remaining (hk : k ≤ F.card) : (remaining F k).card = F.card - k := by
  rw [remaining, Finset.card_sdiff_of_subset, card_image_nthFree hk]
  intro x hx
  obtain ⟨j, hj, rfl⟩ := Finset.mem_image.mp hx
  have hlt := Finset.mem_range.mp hj
  exact nthFree_mem (by omega)

-- The least number left is the next one in order.
theorem eq_nthFree_of_least (hx : x ∈ remaining F k) (hle : ∀ y ∈ remaining F k, x ≤ y) :
    k < F.card ∧ x = nthFree F k := by
  obtain ⟨hxF, hne⟩ := mem_remaining.mp hx
  obtain ⟨i, hi, rfl⟩ := exists_nthFree hxF
  have hki : k ≤ i := by
    by_contra hlt
    exact hne i (Nat.not_le.mp hlt) rfl
  have hk : k < F.card := by omega
  refine ⟨hk, le_antisymm (hle _ (mem_remaining.mpr ⟨nthFree_mem hk, ?_⟩)) ?_⟩
  · intro j hj
    exact (nthFree_lt hj hk).ne'
  · rcases Nat.eq_or_lt_of_le hki with rfl | hlt
    · exact le_rfl
    · exact (nthFree_lt hlt hi).le

theorem remaining_eq_empty_iff : remaining F k = ∅ ↔ F.card ≤ k := by
  constructor
  · intro h
    by_contra hlt
    have hk : k < F.card := Nat.not_le.mp hlt
    have hmem : nthFree F k ∈ remaining F k :=
      mem_remaining.mpr ⟨nthFree_mem hk, fun j hj => (nthFree_lt hj hk).ne'⟩
    rw [h] at hmem
    exact Finset.notMem_empty _ hmem
  · intro h
    apply Finset.eq_empty_of_forall_notMem
    intro x hx
    obtain ⟨hxF, hne⟩ := mem_remaining.mp hx
    obtain ⟨i, hi, rfl⟩ := exists_nthFree hxF
    exact hne i (by omega) rfl

-- What is handed out never exceeds any other increasing choice from the free set.
theorem nthFree_le_of_increasing {f : ℕ → ℕ} (hf : ∀ j ≤ k, f j ∈ F)
    (hmono : ∀ i j, i < j → j ≤ k → f i < f j) : k < F.card ∧ nthFree F k ≤ f k := by
  induction k with
  | zero =>
    obtain ⟨i, hi, he⟩ := exists_nthFree (hf 0 le_rfl)
    refine ⟨by omega, he ▸ ?_⟩
    rcases Nat.eq_zero_or_pos i with rfl | hpos
    · exact le_rfl
    · exact (nthFree_lt hpos hi).le
  | succ k ih =>
    obtain ⟨hk, hle⟩ := ih (fun j hj => hf j (by omega)) fun i j hij hj => hmono i j hij (by omega)
    obtain ⟨i, hi, he⟩ := exists_nthFree (hf (k + 1) le_rfl)
    have hlt : nthFree F k < nthFree F i := by
      rw [he]
      exact lt_of_le_of_lt hle (hmono k (k + 1) (by omega) le_rfl)
    have hki : k < i := by
      by_contra hge
      rcases Nat.eq_or_lt_of_le (Nat.not_lt.mp hge) with rfl | hlt'
      · exact lt_irrefl _ hlt
      · exact absurd (nthFree_lt hlt' hk) (Nat.not_lt.mpr hlt.le)
    refine ⟨by omega, he ▸ ?_⟩
    rcases Nat.eq_or_lt_of_le (Nat.succ_le_of_lt hki) with heq | hlt'
    · exact heq ▸ le_rfl
    · exact (nthFree_lt hlt' hi).le

end Lowest
