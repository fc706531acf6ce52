import AgriFeed.Pricefloor.Invariants

/-! When a funded agreement can be settled and when it can be cancelled, on a token that moves exact amounts
and lets the contract send what it has. -/
namespace AgriFeed.Pricefloor
open Foundation

variable {L : Type} {tokens : Tokens L} {self : Address}

section Payments
variable {l l' : L} {token receiver : Address} {amount : I128}

/-- A payment takes its positive part from the contract and gives it to the receiver. -/
theorem payOut_moved (law : tokens.Exact) (h : payOut tokens self l token receiver amount = .ok l') (holder : Address) :
    (tokens.balance l' token holder).val = (tokens.balance l token holder).val -
      (if holder = self then max amount.val 0 else 0) + (if holder = receiver then max amount.val 0 else 0) := by
  rcases payOut_cases h with ⟨hv, ht⟩ | ⟨hv, rfl⟩
  · rw [max_eq_left hv.le]
    exact law.moved _ _ _ _ _ _ ht holder
  · rw [max_eq_right hv, ite_self, ite_self, Int.sub_zero, Int.add_zero]

/-- A payment is covered and takes no more than its positive part, whoever receives it. -/
theorem payOut_leaves (law : tokens.Exact) (h : payOut tokens self l token receiver amount = .ok l') :
    (0 < amount.val → amount.val ≤ (tokens.balance l token self).val) ∧
      (tokens.balance l token self).val - max amount.val 0 ≤ (tokens.balance l' token self).val := by
  have hmoved := payOut_moved law h self
  constructor
  · intro hv
    obtain ⟨_, ht⟩ := (payOut_cases h).resolve_right fun hn => absurd hv (not_lt.mpr hn.1)
    exact (law.covered _ _ _ _ _ _ ht).2
  · rw [if_pos rfl] at hmoved
    split at hmoved <;> omega

theorem exists_payOut (token receiver : Address) (accepts : tokens.Accepts self)
    (h : amount.val ≤ (tokens.balance l token self).val) :
    ∃ l', payOut tokens self l token receiver amount = .ok l' := by
  unfold payOut
  split
  · rename_i hpos
    have hv : 0 < amount.val := (SignedInt.lt_iff 0 amount).mp hpos
    obtain ⟨l', ht⟩ := Option.isSome_iff_exists.mp (accepts l token receiver amount hv.le h)
    exact ⟨l', transfer_eq_ok.mpr ht⟩
  · exact ⟨l, rfl⟩

end Payments

section Shares
variable {floorPrice notional marketPrice funded : I128}

/-- The settlement arithmetic below the floor: three checked operations on integers. -/
theorem shares_below_floor (hm : marketPrice < floorPrice) {payout refund : I128} :
    settlementShares floorPrice notional marketPrice funded = .ok (payout, refund) ↔
      InRange 128 (floorPrice.val - marketPrice.val) ∧ InRange 128 ((floorPrice.val - marketPrice.val) * notional.val) ∧
        payout.val = min ((floorPrice.val - marketPrice.val) * notional.val) funded.val ∧
        refund.val = funded.val - payout.val := by
  rw [settlementShares, if_pos hm]
  simp only [bind_eq_ok, okOr_eq_ok, SignedInt.checkedSub, SignedInt.checkedMul, SignedInt.ofInt?_eq_some]
  constructor
  · rintro ⟨diff, hd, gross, hg, rest, hr, he⟩
    cases he
    rw [hd] at hg
    refine ⟨hd ▸ diff.inRange, hg ▸ gross.inRange, ?_, hr⟩
    rw [SignedInt.val_min, hg]
  · rintro ⟨hd, hg, hp, hr⟩
    have hpayout : payout = min ⟨_, hg⟩ funded :=
      SignedInt.ext (hp.trans (SignedInt.val_min ⟨_, hg⟩ funded).symm)
    exact ⟨⟨_, hd⟩, rfl, ⟨_, hg⟩, rfl, refund, by rw [hr, hpayout], by rw [hpayout]; rfl⟩

theorem shares_at_floor (hm : floorPrice ≤ marketPrice) :
    settlementShares floorPrice notional marketPrice funded = .ok (0, funded) := by
  rw [settlementShares, if_neg (not_lt.mpr hm)]
  rfl

/-- The condition under which a price settles the agreement: the floor is met, or the notional is not negative
and neither the difference nor its product with the notional overflows. -/
def Settleable (floorPrice notional marketPrice : I128) : Prop :=
  floorPrice ≤ marketPrice ∨
    (0 ≤ notional.val ∧ floorPrice.val - marketPrice.val < 2 ^ 127 ∧
      (floorPrice.val - marketPrice.val) * notional.val < 2 ^ 127)

/-- A settleable price divides a collateral into two shares that it covers one after the other. -/
private theorem exists_shares (h : Settleable floorPrice notional marketPrice) (hf : 0 ≤ funded.val) :
    ∃ payout refund, settlementShares floorPrice notional marketPrice funded = .ok (payout, refund) ∧
      payout.val ≤ funded.val ∧ refund.val ≤ funded.val - max payout.val 0 := by
  by_cases hm : floorPrice ≤ marketPrice
  · exact ⟨0, funded, shares_at_floor hm, hf, by simp⟩
  · have hlt := not_le.mp hm
    have hdiff : 0 < floorPrice.val - marketPrice.val := Int.sub_pos.mpr hlt
    obtain ⟨hq, hd, hg⟩ := h.resolve_left hm
    have hgross := Int.mul_nonneg hdiff.le hq
    have hupper := funded.inRange.2
    have hpayout : InRange 128 (min ((floorPrice.val - marketPrice.val) * notional.val) funded.val) := by
      constructor <;> omega
    have hrefund : InRange 128 (funded.val - min ((floorPrice.val - marketPrice.val) * notional.val) funded.val) := by
      constructor <;> omega
    refine ⟨⟨_, hpayout⟩, ⟨_, hrefund⟩, (shares_below_floor hlt).mpr ⟨?_, ?_, rfl, rfl⟩, ?_, ?_⟩
    · exact (SignedInt.inRange_of_nonneg hdiff.le).mpr hd
    · exact (SignedInt.inRange_of_nonneg hgross).mpr hg
    · exact min_le_right _ _
    · rw [max_eq_left (le_min hgross hf)]

/-- Shares that the collateral covers one after the other come from a settleable price. A negative notional
would make the payout negative and the refund larger than the collateral. -/
theorem settleable_of_shares {payout refund : I128}
    (h : settlementShares floorPrice notional marketPrice funded = .ok (payout, refund))
    (hrefund : payout.val < 0 → refund.val ≤ funded.val) : Settleable floorPrice notional marketPrice := by
  by_cases hm : floorPrice ≤ marketPrice
  · exact .inl hm
  · have hlt := not_le.mp hm
    have hdiff : 0 < floorPrice.val - marketPrice.val := Int.sub_pos.mpr hlt
    obtain ⟨hd, hg, hp, hr⟩ := (shares_below_floor hlt).mp h
    refine .inr ⟨?_, hd.2, hg.2⟩
    by_contra hq
    have hgross := Int.mul_neg_of_pos_of_neg hdiff (not_le.mp hq)
    have hneg : payout.val < 0 := hp ▸ min_lt_of_left_lt hgross
    have := hrefund hneg
    omega

end Shares

section Calls
variable {w : World L} {terms : Terms} {env : Env} {feed : Feed}

/-- A settlement has read a price for the stored terms, divided the collateral at it and reported it. -/
theorem Transition.settle_terms {w' : World L} {out : Output} (holds : w.storage.Holds terms)
    (h : Transition tokens self w (.invoke ⟨env, feed, .settle⟩) out w') :
    ∃ record payout refund, terms.quote feed = some record ∧
      settlementShares terms.floorPrice terms.notional record.price
        (tokens.balance w.ledger terms.settlementToken self) = .ok (payout, refund) ∧
      out = (.payout payout, [.settled terms.farmer payout record.price]) := by
  cases h with
  | settle _ _ hh _ hq hd =>
    cases hh.unique holds
    exact ⟨_, _, _, hq, hd, rfl⟩

/-- A mature and funded agreement can be settled exactly at a settleable price. -/
theorem settle_commits_iff (law : tokens.Exact) (accepts : tokens.Accepts self) (holds : w.storage.Holds terms)
    (hfunded : w.storage.funded = some true) (hunsettled : w.storage.settled.getD false = false)
    (hbalance : 0 ≤ (tokens.balance w.ledger terms.settlementToken self).val)
    (hmature : terms.maturity ≤ env.timestamp) :
    (machine tokens self).Commits w (.invoke ⟨env, feed, .settle⟩) ↔
      ∃ record, terms.quote feed = some record ∧ Settleable terms.floorPrice terms.notional record.price := by
  constructor
  · intro h
    obtain ⟨_, _, ht⟩ := commits_iff.mp h
    cases ht with
    | @settle _ _ stored record payout refund mid _ hs hf hh hm hq hd hp hb =>
      cases hh.unique holds
      refine ⟨record, hq, settleable_of_shares hd fun hneg => ?_⟩
      obtain ⟨_, hmid⟩ := (payOut_cases hp).resolve_left fun hpos => absurd hpos.1 (not_lt.mpr hneg.le)
      rw [hmid] at hb
      have hcovered := (payOut_leaves law hb).1
      omega
  · rintro ⟨record, hq, hs⟩
    obtain ⟨payout, refund, hd, hp, hr⟩ := exists_shares hs hbalance
    obtain ⟨mid, hfirst⟩ := exists_payOut terms.settlementToken terms.farmer accepts hp
    have hleft := (payOut_leaves law hfirst).2
    obtain ⟨ledger, hsecond⟩ := exists_payOut terms.settlementToken terms.buyer accepts (hr.trans hleft)
    exact commits_iff.mpr ⟨_, _, .settle hunsettled hfunded holds hmature hq hd hfirst hsecond⟩

/-- After the grace period either party can cancel a funded agreement exactly when its oracle has no price. -/
theorem cancel_commits_iff (accepts : tokens.Accepts self) (holds : w.storage.Holds terms)
    (hfunded : w.storage.funded = some true) (hunsettled : w.storage.settled.getD false = false)
    {caller : Address} (hsigned : caller ∈ env.auths) (hparty : caller = terms.farmer ∨ caller = terms.buyer)
    (helapsed : saturatingAdd terms.maturity settleFailureGrace ≤ env.timestamp) :
    (machine tokens self).Commits w (.invoke ⟨env, feed, .cancel caller⟩) ↔ terms.quote feed = none := by
  constructor
  · intro h
    obtain ⟨_, _, ht⟩ := commits_iff.mp h
    cases ht with
    | cancelFunded _ _ _ _ _ _ _ _ _ ho hc hq =>
      cases ho.symm.trans holds.oracle
      cases hc.symm.trans holds.commodity
      exact hq
    | cancelUnfunded _ _ _ _ _ _ hu =>
      rw [hfunded] at hu
      cases hu
  · intro hq
    have hcovered := le_refl (tokens.balance w.ledger terms.settlementToken self).val
    obtain ⟨ledger, hr⟩ := exists_payOut terms.settlementToken terms.buyer accepts hcovered
    exact commits_iff.mpr ⟨_, _, .cancelFunded hsigned holds.farmer holds.buyer hparty hunsettled holds.settlementToken
      hfunded holds.maturity helapsed holds.oracle holds.commodity hq hr⟩

end Calls
end AgriFeed.Pricefloor
