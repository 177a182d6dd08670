import ResidentInference.Device.TierResidency

/-! Rounds of the tier residency kernel with the same selected ids: after two of them no page moves
any more. -/
namespace ResidentInference.Device
open OwnedBlocks
namespace TierLaunch
variable {launch : TierLaunch} {requestSlot : Int}

theorem promote_promote_promote (tier : MovementTier) :
    tier.promote.promote.promote = tier.promote.promote := by
  cases tier <;> rfl

/-- Two rounds of promotions take a page as near as they can. -/
theorem promote_iterate_twice {n : Nat} (hn : 1 ≤ n) (tier : MovementTier) :
    (MovementTier.promote^[n] (MovementTier.promote^[n] tier)).promote =
      MovementTier.promote^[n] (MovementTier.promote^[n] tier) := by
  obtain ⟨m, rfl⟩ : ∃ m, n = m + 1 := ⟨n - 1, by omega⟩
  rw [← Function.iterate_add_apply, show m + 1 + (m + 1) = (m + m) + 2 by omega,
    Function.iterate_add_apply]
  have hfixed : (MovementTier.promote^[2] tier).promote = MovementTier.promote^[2] tier :=
    promote_promote_promote tier
  rw [Function.iterate_fixed hfixed (m + m)]
  exact hfixed

/-- After two rounds there is nothing left to promote. -/
theorem promoted_block_block (tiers : Int → MovementTier) :
    let twice := (launch.tierResidencyBlock (launch.tierResidencyBlock tiers requestSlot).1
      requestSlot).1
    launch.promoted requestSlot twice = twice := by
  intro twice
  funext i
  cases hsel : launch.isSelectedPage requestSlot i with
  | false => exact promoted_of_not_selected hsel twice
  | true =>
    obtain ⟨out, down, h⟩ := rebalance_demoted launch requestSlot tiers
    obtain ⟨out', down', h'⟩ := rebalance_demoted launch requestSlot
      (launch.tierResidencyBlock tiers requestSlot).1
    have honce := h.selected hsel
    have htwice : twice i = _ := h'.selected hsel
    by_cases hi : 0 ≤ i ∧ i ∈ launch.pages requestSlot
    · obtain ⟨id, hid, heq⟩ := List.any_eq_true.mp hsel
      have hcount : 1 ≤ (launch.slotIds requestSlot).count i :=
        List.count_pos_iff.mpr (beq_iff_eq.mp heq ▸ hid)
      have hnear : twice i = MovementTier.promote^[(launch.slotIds requestSlot).count i]
          (MovementTier.promote^[(launch.slotIds requestSlot).count i] (tiers i)) := by
        rw [htwice, promoted, if_pos hi]
        refine congrArg _ (honce.trans ?_)
        rw [promoted, if_pos hi]
      rw [promoted, if_pos hi, hnear]
      exact Function.iterate_fixed (promote_iterate_twice hcount _) _
    · rw [promoted, if_neg hi]

/-- A third round of a block changes no tier. -/
theorem tierResidencyBlock_settles (tiers : Int → MovementTier) :
    let twice := (launch.tierResidencyBlock (launch.tierResidencyBlock tiers requestSlot).1
      requestSlot).1
    (launch.tierResidencyBlock twice requestSlot).1 = twice := by
  intro twice
  have hprom : launch.promoted requestSlot twice = twice := promoted_block_block tiers
  obtain ⟨out, down, h⟩ := rebalance_demoted launch requestSlot
    (launch.tierResidencyBlock tiers requestSlot).1
  obtain ⟨out', down', h'⟩ := rebalance_demoted launch requestSlot twice
  have hout : out' = [] := by
    by_cases hover : launch.hbmCapacityPages <
        ((launch.pages requestSlot).countP fun i => decide (twice i = .hbm) : Nat)
    · refine List.eq_nil_iff_forall_not_mem.mpr fun i hi => ?_
      obtain ⟨hmem, hsel, htier⟩ := h'.mem_out i hi
      rw [hprom] at htier
      exact Bool.false_ne_true (hsel.symm.trans (h.hbm_over hover i hmem htier))
    · exact h'.hbm_room (by rw [hprom]; exact not_lt.mp hover)
  have hdown : down' = [] := by
    by_cases hover : launch.dramCapacityPages <
        ((launch.pages requestSlot).countP fun i => decide (twice i = .dram) : Nat)
    · refine List.eq_nil_iff_forall_not_mem.mpr fun i hi => ?_
      obtain ⟨hmem, hsel, htier⟩ := h'.mem_down i hi
      rw [hout, hprom] at htier
      have hdram := htier.resolve_left List.not_mem_nil
      exact Bool.false_ne_true (hsel.symm.trans (h.dram_over hover i hmem hdram))
    · exact h'.dram_room hout (by rw [hprom]; exact not_lt.mp hover)
  funext i
  refine (h'.tier_eq i).trans ?_
  rw [hout, hdown, if_neg List.not_mem_nil, if_neg List.not_mem_nil, hprom]

/-- What the three launches leave of one request. -/
theorem ranAlone_trans {b : Int} {tiers tiers' : Int → MovementTier}
    {out : (Int → MovementTier) × (Int → KVTierResidencyMetrics)}
    (h : RanAlone (fun tiers => tiers) (fun b i => i ∈ launch.pages b)
      launch.tierResidencyBlock tiers b out)
    (hsame : ∀ i ∈ launch.pages b, tiers i = tiers' i) :
    ∀ i ∈ launch.pages b, out.1 i = (launch.tierResidencyBlock tiers' b).1 i := fun i hi =>
  (h.cells i hi).trans ((launch.owned_tierResidencyBlock.congr rfl hsame).1 i hi)

end TierLaunch

/-- A third launch changes no tier, in whatever order the blocks of each launch run. -/
theorem kvTierResidencyKernel_settles (launch : TierLaunch) (tiers : Int → MovementTier)
    {order order' order'' : List Int} (hnd : order.Nodup) (hperm : order.Perm order')
    (hperm' : order'.Perm order'') (metrics metrics' metrics'' : Int → KVTierResidencyMetrics) :
    let once := (kvTierResidencyKernel launch tiers order metrics).1
    let twice := (kvTierResidencyKernel launch once order' metrics').1
    (kvTierResidencyKernel launch twice order'' metrics'').1 = twice := by
  intro once twice
  have howned := launch.owned_tierResidencyBlock
  have hnd' := hperm.nodup_iff.mp hnd
  have hnd'' := hperm'.nodup_iff.mp hnd'
  funext i
  by_cases hex : ∃ b ∈ order'', i ∈ launch.pages b
  · obtain ⟨b, hb'', hi⟩ := hex
    have hb' := hperm'.mem_iff.mpr hb''
    have hb := hperm.mem_iff.mpr hb'
    have honce := (howned.runBlocks hnd hb (tiers, metrics)).cells
    have htwice := TierLaunch.ranAlone_trans (howned.runBlocks hnd' hb' (once, metrics')) honce
    have hthrice :=
      TierLaunch.ranAlone_trans (howned.runBlocks hnd'' hb'' (twice, metrics'')) htwice
    have hsettles := congrFun (@TierLaunch.tierResidencyBlock_settles launch b tiers) i
    exact (hthrice i hi).trans (hsettles.trans (htwice i hi).symm)
  · exact howned.runBlocks_frame (fun b hb hi => hex ⟨b, hb, hi⟩) (twice, metrics'')

/-- No room anywhere: the selected page of each tier stays in HBM, the others end on SSD. -/
theorem kvTierResidencyKernel_settles_host :
    let ids : List Int := [0, 2, 4]
    let launch : TierLaunch := ⟨fun i => ids.getD i.toNat (-1), 3, 6, 0, 0, 64⟩
    let once := (kvTierResidencyKernel launch residencyTier [0] fun _ => {}).1
    let twice := (kvTierResidencyKernel launch once [0] fun _ => {}).1
    (kvTierResidencyKernel launch twice [0] fun _ => {}).1 = twice ∧
      (Int.range 0 6).map twice = [.hbm, .ssd, .hbm, .ssd, .hbm, .ssd] := by
  intro ids launch once twice
  exact ⟨kvTierResidencyKernel_settles launch residencyTier (by decide) (List.Perm.refl _)
    (List.Perm.refl _) _ _ _, by decide +kernel⟩

end ResidentInference.Device
