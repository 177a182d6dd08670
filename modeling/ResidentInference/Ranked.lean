import Mathlib.Data.List.Sort
import Mathlib.Data.List.Nodup
import Mathlib.Data.List.Perm.Subperm
import Mathlib.Tactic.Common

/-! Indices ranked by a key: the larger keys first, equal keys by index. The ranking grows from the
front by the first best of the indices that are left, which is what a scan in ascending order
finds. -/
namespace ResidentInference.Ranked
variable {ι κ : Type*} [LinearOrder ι] [LinearOrder κ]

def Ahead (key : ι → κ) (i j : ι) : Prop := key j < key i ∨ key i = key j ∧ i ≤ j

instance (key : ι → κ) : DecidableRel (Ahead key) :=
  fun _ _ => inferInstanceAs (Decidable (_ ∨ _ ∧ _))

section
variable {key : ι → κ} {i j k : ι}

theorem Ahead.refl (key : ι → κ) (i : ι) : Ahead key i i := Or.inr ⟨rfl, le_rfl⟩

theorem Ahead.trans (h : Ahead key i j) (h' : Ahead key j k) : Ahead key i k := by
  obtain h | ⟨hkey, hij⟩ := h
  · obtain h' | ⟨hkey', -⟩ := h'
    · exact Or.inl (h'.trans h)
    · exact Or.inl (hkey' ▸ h)
  · obtain h' | ⟨hkey', hjk⟩ := h'
    · exact Or.inl (hkey ▸ h')
    · exact Or.inr ⟨hkey.trans hkey', hij.trans hjk⟩

theorem Ahead.antisymm (h : Ahead key i j) (h' : Ahead key j i) : i = j := by
  obtain h | ⟨hkey, hij⟩ := h
  · obtain h' | ⟨hkey', -⟩ := h'
    · exact absurd h h'.asymm
    · exact absurd hkey' h.ne
  · obtain h' | ⟨-, hji⟩ := h'
    · exact absurd hkey h'.ne
    · exact hij.antisymm hji

theorem Ahead.total (key : ι → κ) (i j : ι) : Ahead key i j ∨ Ahead key j i := by
  obtain h | h | h := lt_trichotomy (key i) (key j)
  · exact Or.inr (Or.inl h)
  · exact (le_total i j).imp (fun hij => Or.inr ⟨h, hij⟩) fun hji => Or.inr ⟨h.symm, hji⟩
  · exact Or.inl (Or.inl h)

end

instance (key : ι → κ) : Std.Total (Ahead key) := ⟨Ahead.total key⟩
instance (key : ι → κ) : IsTrans ι (Ahead key) := ⟨fun _ _ _ => Ahead.trans⟩
instance (key : ι → κ) : Std.Antisymm (Ahead key) := ⟨fun _ _ => Ahead.antisymm⟩

/-- The indices in the order of their ranks. -/
def ranked (key : ι → κ) (is : List ι) : List ι := is.insertionSort (Ahead key)

theorem ranked_perm (key : ι → κ) (is : List ι) : (ranked key is).Perm is :=
  List.perm_insertionSort _ is

theorem ranked_pairwise (key : ι → κ) (is : List ι) : (ranked key is).Pairwise (Ahead key) :=
  List.pairwise_insertionSort _ is

@[simp] theorem mem_ranked {key : ι → κ} {is : List ι} {i : ι} : i ∈ ranked key is ↔ i ∈ is :=
  (ranked_perm key is).mem_iff

@[simp] theorem length_ranked (key : ι → κ) (is : List ι) : (ranked key is).length = is.length :=
  (ranked_perm key is).length_eq

/-- There is one order of ranks. -/
theorem eq_ranked {key : ι → κ} {is order : List ι} (hperm : order.Perm is)
    (hsorted : order.Pairwise (Ahead key)) : order = ranked key is :=
  (hperm.trans (ranked_perm key is).symm).eq_of_pairwise' hsorted (ranked_pairwise key is)

/-! ## The front of a ranking -/

/-- `order` lists the first of `is` by rank: the others come after all of them. -/
structure Leading (key : ι → κ) (is order : List ι) : Prop where
  nodup : order.Nodup
  mem : ∀ i ∈ order, i ∈ is
  sorted : order.Pairwise (Ahead key)
  ahead : ∀ i ∈ order, ∀ j ∈ is, j ∉ order → Ahead key i j

section
variable {key : ι → κ} {is order : List ι}

theorem Leading.nil (key : ι → κ) (is : List ι) : Leading key is [] :=
  ⟨List.nodup_nil, by simp, List.Pairwise.nil, by simp⟩

/-- The front grows by the best index that is left. -/
theorem Leading.concat (h : Leading key is order) {i : ι} (hi : i ∈ is) (hnew : i ∉ order)
    (hbest : ∀ j ∈ is, j ∉ order → Ahead key i j) : Leading key is (order ++ [i]) := by
  refine ⟨by simpa using h.nodup.concat hnew, fun j hj => ?_, ?_, fun j hj k hk hout => ?_⟩
  · obtain hj | hj := List.mem_append.mp hj
    · exact h.mem j hj
    · exact List.mem_singleton.mp hj ▸ hi
  · refine List.pairwise_append.mpr ⟨h.sorted, List.pairwise_singleton _ i, fun j hj k hk => ?_⟩
    rw [List.mem_singleton.mp hk]
    exact h.ahead j hj i hi hnew
  · have hk' : k ∉ order := fun hin => hout (List.mem_append_left _ hin)
    obtain hj | hj := List.mem_append.mp hj
    · exact h.ahead j hj k hk hk'
    · exact List.mem_singleton.mp hj ▸ hbest k hk hk'

/-- A front is a prefix of the ranking. -/
theorem Leading.eq_take (h : Leading key is order) (hnd : is.Nodup) :
    order = (ranked key is).take order.length := by
  have hrest : ∀ {j}, j ∈ ranked key (is.filter (· ∉ order)) ↔ j ∈ is ∧ j ∉ order := by simp
  have hperm : (order ++ ranked key (is.filter (· ∉ order))).Perm is := by
    refine (List.perm_ext_iff_of_nodup (h.nodup.append ?_ ?_) hnd).mpr fun j => ?_
    · exact (ranked_perm _ _).nodup_iff.mpr (hnd.filter _)
    · exact fun j hj hj' => (hrest.mp hj').2 hj
    · rw [List.mem_append, hrest]
      by_cases hj : j ∈ order
      · exact iff_of_true (Or.inl hj) (h.mem j hj)
      · simp [hj]
  have hsorted : (order ++ ranked key (is.filter (· ∉ order))).Pairwise (Ahead key) :=
    List.pairwise_append.mpr ⟨h.sorted, ranked_pairwise _ _, fun i hi j hj =>
      h.ahead i hi j (hrest.mp hj).1 (hrest.mp hj).2⟩
  rw [← eq_ranked hperm hsorted, List.take_left]

theorem Leading.length_le (h : Leading key is order) : order.length ≤ is.length :=
  (h.nodup.subperm fun i hi => h.mem i hi).length_le

/-- A front with every index is the whole ranking. -/
theorem Leading.eq_ranked (h : Leading key is order) (hnd : is.Nodup)
    (hall : ∀ i ∈ is, i ∈ order) : order = ranked key is := by
  refine Ranked.eq_ranked ?_ h.sorted
  exact (List.perm_ext_iff_of_nodup h.nodup hnd).mpr fun i => ⟨h.mem i, hall i⟩

end

/-! ## A scan for the first best index -/

/-- `pick` keeps the better of the best open index so far and the next one; `start` stands for no
index. -/
structure Scans (isOpen : ι → Prop) (key : ι → κ) (start : ι × κ) (pick : ι × κ → ι → ι × κ)
    (is : List ι) : Prop where
  skip : ∀ i ∈ is, ¬ isOpen i → ∀ best, pick best i = best
  first : ∀ i ∈ is, isOpen i → pick start i = (i, key i)
  next : ∀ i ∈ is, isOpen i → ∀ j ∈ is, isOpen j →
    pick (j, key j) i = if key j < key i then (i, key i) else (j, key j)

section
variable {isOpen : ι → Prop} {key : ι → κ} {start : ι × κ} {pick : ι × κ → ι → ι × κ}

/-- A scan that has met an open index ends with the first best one. -/
theorem Scans.foldl_of_best {all : List ι} (h : Scans isOpen key start pick all) {i : ι}
    (hi : i ∈ all) (hopen : isOpen i) {is : List ι} (hall : ∀ j ∈ is, j ∈ all)
    (hafter : ∀ j ∈ is, i < j) (his : is.Pairwise (· < ·)) :
    ∃ b, b ∈ i :: is ∧ isOpen b ∧ is.foldl pick (i, key i) = (b, key b) ∧
      ∀ j ∈ i :: is, isOpen j → Ahead key b j := by
  induction is generalizing i with
  | nil =>
    refine ⟨i, List.mem_singleton_self i, hopen, rfl, fun j hj _ => ?_⟩
    exact List.mem_singleton.mp hj ▸ Ahead.refl key i
  | cons k is ih =>
    obtain ⟨hk, his⟩ := List.pairwise_cons.mp his
    have hik := hafter k List.mem_cons_self
    have hall' : ∀ j ∈ is, j ∈ all := fun j hj => hall j (List.mem_cons_of_mem k hj)
    have hkall := hall k List.mem_cons_self
    rw [List.foldl_cons]
    by_cases hkopen : isOpen k
    · rw [h.next k hkall hkopen i hi hopen]
      split
      · next hlt =>
        obtain ⟨b, hb, hbopen, hscan, hbest⟩ := ih hkall hkopen hall' hk his
        refine ⟨b, List.mem_cons_of_mem i hb, hbopen, hscan, fun j hj hj' => ?_⟩
        obtain rfl | hj := List.mem_cons.mp hj
        · exact (hbest k List.mem_cons_self hkopen).trans (Or.inl hlt)
        · exact hbest j hj hj'
      · next hle =>
        obtain ⟨b, hb, hbopen, hscan, hbest⟩ :=
          ih hi hopen hall' (fun j hj => hik.trans (hk j hj)) his
        have hib := hbest i List.mem_cons_self hopen
        have hahead : Ahead key i k := by
          obtain hlt | heq := (not_lt.mp hle).lt_or_eq
          · exact Or.inl hlt
          · exact Or.inr ⟨heq.symm, hik.le⟩
        refine ⟨b, ?_, hbopen, hscan, fun j hj hj' => ?_⟩
        · obtain hb | hb := List.mem_cons.mp hb
          · exact hb ▸ List.mem_cons_self
          · exact List.mem_cons_of_mem i (List.mem_cons_of_mem k hb)
        · obtain rfl | hj := List.mem_cons.mp hj
          · exact hib
          · obtain rfl | hj := List.mem_cons.mp hj
            · exact hib.trans hahead
            · exact hbest j (List.mem_cons_of_mem i hj) hj'
    · rw [h.skip k hkall hkopen]
      obtain ⟨b, hb, hbopen, hscan, hbest⟩ :=
        ih hi hopen hall' (fun j hj => hik.trans (hk j hj)) his
      refine ⟨b, ?_, hbopen, hscan, fun j hj hj' => ?_⟩
      · obtain hb | hb := List.mem_cons.mp hb
        · exact hb ▸ List.mem_cons_self
        · exact List.mem_cons_of_mem i (List.mem_cons_of_mem k hb)
      · obtain rfl | hj := List.mem_cons.mp hj
        · exact hbest j List.mem_cons_self hj'
        · obtain rfl | hj := List.mem_cons.mp hj
          · exact absurd hj' hkopen
          · exact hbest j (List.mem_cons_of_mem i hj) hj'

/-- A scan in ascending order finds the first best open index, if one is open. -/
theorem Scans.foldl {is : List ι} (h : Scans isOpen key start pick is)
    (his : is.Pairwise (· < ·)) :
    (is.foldl pick start = start ∧ ∀ i ∈ is, ¬ isOpen i) ∨
      ∃ b, b ∈ is ∧ isOpen b ∧ is.foldl pick start = (b, key b) ∧
        ∀ j ∈ is, isOpen j → Ahead key b j := by
  have hscan : ∀ {rest : List ι}, (∀ j ∈ rest, j ∈ is) → rest.Pairwise (· < ·) →
      (rest.foldl pick start = start ∧ ∀ i ∈ rest, ¬ isOpen i) ∨
        ∃ b, b ∈ rest ∧ isOpen b ∧ rest.foldl pick start = (b, key b) ∧
          ∀ j ∈ rest, isOpen j → Ahead key b j := by
    intro rest hall hrest
    induction rest with
    | nil => exact Or.inl ⟨rfl, by simp⟩
    | cons i rest ih =>
      obtain ⟨hafter, hrest⟩ := List.pairwise_cons.mp hrest
      have hi := hall i List.mem_cons_self
      have hall' : ∀ j ∈ rest, j ∈ is := fun j hj => hall j (List.mem_cons_of_mem i hj)
      rw [List.foldl_cons]
      by_cases hopen : isOpen i
      · rw [h.first i hi hopen]
        exact Or.inr (h.foldl_of_best hi hopen hall' hafter hrest)
      · rw [h.skip i hi hopen]
        obtain ⟨heq, hnone⟩ | ⟨b, hb, hbopen, heq, hbest⟩ := ih hall' hrest
        · exact Or.inl ⟨heq, List.forall_mem_cons.mpr ⟨hopen, hnone⟩⟩
        · refine Or.inr ⟨b, List.mem_cons_of_mem i hb, hbopen, heq, fun j hj hj' => ?_⟩
          obtain rfl | hj := List.mem_cons.mp hj
          · exact absurd hj' hopen
          · exact hbest j hj hj'
  exact hscan (fun _ hj => hj) his

end
end ResidentInference.Ranked
