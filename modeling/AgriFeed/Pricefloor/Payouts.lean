import AgriFeed.Pricefloor.Settlement

/-! Exactly when a mature agreement is settled, and exactly what everyone has afterwards. -/
namespace AgriFeed.Pricefloor
open Foundation

/-- What the farmer is owed out of a collateral: the shortfall of the market price, up to the collateral. -/
def owed (floorPrice notional marketPrice collateral : Int) : Int :=
  if floorPrice ≤ marketPrice then 0 else min ((floorPrice - marketPrice) * notional) collateral

variable {L : Type} {tokens : Tokens L} {self : Address}

section Shares
variable {floorPrice notional marketPrice funded payout refund : I128}

/-- A settlement that a price allows pays what is owed, which is neither negative nor more than the collateral. -/
theorem shares_owed (hs : Settleable floorPrice notional marketPrice) (hb : 0 ≤ funded.val)
    (h : settlementShares floorPrice notional marketPrice funded = .ok (payout, refund)) :
    payout.val = owed floorPrice.val notional.val marketPrice.val funded.val ∧
      0 ≤ payout.val ∧ payout.val ≤ funded.val := by
  by_cases hm : floorPrice ≤ marketPrice
  · rw [shares_at_floor hm] at h
    cases h
    rw [owed, if_pos ((SignedInt.le_iff _ _).mp hm)]
    exact ⟨rfl, le_refl _, hb⟩
  · obtain ⟨_, _, hp, _⟩ := (shares_below_floor (not_le.mp hm)).mp h
    obtain ⟨hq, _, _⟩ := hs.resolve_left hm
    have hdiff : 0 ≤ floorPrice.val - marketPrice.val := (Int.sub_pos.mpr (not_le.mp hm)).le
    rw [owed, if_neg fun hle => hm ((SignedInt.le_iff _ _).mpr hle), hp]
    exact ⟨rfl, le_min (Int.mul_nonneg hdiff hq) hb, min_le_right _ _⟩

end Shares

/-- A settlement that has gone through had a price that allows it, and has paid what is owed at that price. -/
theorem Transition.settle_owed {w w' : World L} {terms : Terms} {env : Env} {feed : Feed} {out : Output}
    (law : tokens.Exact) (holds : w.storage.Holds terms)
    (hbalance : 0 ≤ (tokens.balance w.ledger terms.settlementToken self).val)
    (h : Transition tokens self w (.invoke ⟨env, feed, .settle⟩) out w') :
    ∃ record payout, terms.quote feed = some record ∧
      Settleable terms.floorPrice terms.notional record.price ∧
      out = (.payout payout, [.settled terms.farmer payout record.price]) ∧
      payout.val = owed terms.floorPrice.val terms.notional.val record.price.val
        (tokens.balance w.ledger terms.settlementToken self).val := by
  cases h with
  | @settle _ _ _ record payout refund mid ledger _ _ hh _ hq hd hfirst hsecond =>
    cases hh.unique holds
    have hsettleable : Settleable terms.floorPrice terms.notional record.price := by
      refine settleable_of_shares hd fun hneg => ?_
      obtain ⟨_, rfl⟩ := (payOut_cases hfirst).resolve_left fun hp => absurd hp.1 (not_lt.mpr hneg.le)
      have hcovered := (payOut_leaves law hsecond).1
      omega
    exact ⟨record, payout, hq, hsettleable, rfl, (shares_owed hsettleable hbalance hd).1⟩

/-- What a settlement leaves behind: the farmer has received what is owed, the buyer the rest, and the contract
has nothing left. -/
structure SettledExactly (tokens : Tokens L) (self : Address) (terms : Terms) (marketPrice : I128) (w w' : World L)
    (payout : I128) : Prop where
  owed : payout.val = owed terms.floorPrice.val terms.notional.val marketPrice.val
    (tokens.balance w.ledger terms.settlementToken self).val
  nonneg : 0 ≤ payout.val
  covered : payout.val ≤ (tokens.balance w.ledger terms.settlementToken self).val
  gains : ∀ holder, holder ≠ self →
    (tokens.balance w'.ledger terms.settlementToken holder).val =
      (tokens.balance w.ledger terms.settlementToken holder).val +
        (if holder = terms.farmer then payout.val else 0) +
        (if holder = terms.buyer then (tokens.balance w.ledger terms.settlementToken self).val - payout.val else 0)
  emptied : (tokens.balance w'.ledger terms.settlementToken self).val = 0
  settled : w'.storage = { w.storage with settled := some true }

section Settlement
variable {w : World L} {terms : Terms} {env : Env} {feed : Feed} {record : Oracle.PriceData}

theorem settled_exactly {w' : World L} {out : Output} (law : tokens.Exact) (accepts : tokens.Accepts self)
    (holds : w.storage.Holds terms) (hmature : terms.maturity ≤ env.timestamp)
    (hprice : terms.quote feed = some record) (hfarmer : terms.farmer ≠ self) (hbuyer : terms.buyer ≠ self)
    (hbalance : 0 < (tokens.balance w.ledger terms.settlementToken self).val)
    (h : Transition tokens self w (.invoke ⟨env, feed, .settle⟩) out w') :
    ∃ payout, out = (.payout payout, [.settled terms.farmer payout record.price]) ∧
      SettledExactly tokens self terms record.price w w' payout := by
  have hcommits := commits_iff.mpr ⟨out, w', h⟩
  cases h with
  | @settle _ _ _ _ payout refund mid ledger hs hf hh _ hq hd hp hb =>
    cases hh.unique holds
    cases hq.symm.trans hprice
    obtain ⟨record, hq, hsettleable⟩ := (settle_commits_iff law accepts holds hf hs hbalance.le hmature).mp hcommits
    cases hq.symm.trans hprice
    obtain ⟨howed, hnonneg, hcovered⟩ := shares_owed hsettleable hbalance.le hd
    have hsum := shares_sum hd
    have hrest : 0 ≤ refund.val := by omega
    refine ⟨payout, rfl, howed, hnonneg, hcovered, fun holder hne => ?_, ?_, rfl⟩
    · have hfirst := payOut_moved law hp holder
      have hsecond := payOut_moved law hb holder
      rw [if_neg hne, Int.sub_zero, max_eq_left hnonneg] at hfirst
      rw [if_neg hne, Int.sub_zero, max_eq_left hrest, hfirst] at hsecond
      rw [← hsum, Int.add_comm payout.val, Int.add_sub_cancel]
      exact hsecond
    · have hfirst := payOut_moved law hp self
      have hsecond := payOut_moved law hb self
      rw [if_pos rfl, if_neg hfarmer.symm] at hfirst
      rw [if_pos rfl, if_neg hbuyer.symm] at hsecond
      change (tokens.balance ledger _ self).val = 0
      omega

end Settlement

/-- A mature and funded agreement is settled exactly when the price meets the floor, or the notional is not negative
and neither the shortfall nor its value overflows. Then everyone has exactly what is owed to them; otherwise
nothing has changed. -/
theorem settlement_exact {L : Type} (tokens : Tokens L) (law : tokens.Exact) (self : Address)
    (accepts : tokens.Accepts self) (w : World L) (terms : Terms) (holds : w.storage.Holds terms)
    (hfunded : w.storage.funded = some true) (hunsettled : w.storage.settled.getD false = false)
    (env : Env) (feed : Feed) (hmature : terms.maturity ≤ env.timestamp)
    (record : Oracle.PriceData) (hprice : terms.quote feed = some record)
    (hfarmer : terms.farmer ≠ self) (hbuyer : terms.buyer ≠ self)
    (hbalance : 0 < (tokens.balance w.ledger terms.settlementToken self).val) :
    ((machine tokens self).Commits w (.invoke ⟨env, feed, .settle⟩) ↔
      terms.floorPrice.val ≤ record.price.val ∨ (0 ≤ terms.notional.val ∧
        terms.floorPrice.val - record.price.val ≤ 2 ^ 127 - 1 ∧
        (terms.floorPrice.val - record.price.val) * terms.notional.val ≤ 2 ^ 127 - 1)) ∧
    (∀ out, (machine tokens self).result w (.invoke ⟨env, feed, .settle⟩) = .ok out →
      ∃ payout, out = (.payout payout, [.settled terms.farmer payout record.price]) ∧
        SettledExactly tokens self terms record.price w
          ((machine tokens self).step w (.invoke ⟨env, feed, .settle⟩)) payout) ∧
    (¬ (machine tokens self).Commits w (.invoke ⟨env, feed, .settle⟩) →
      (machine tokens self).step w (.invoke ⟨env, feed, .settle⟩) = w) := by
  refine ⟨?_, fun out hr => ?_, (machine tokens self).step_of_not_commits⟩
  · rw [settle_commits_iff law accepts holds hfunded hunsettled hbalance.le hmature]
    simp only [hprice, Option.some.injEq, exists_eq_left', Settleable, SignedInt.le_iff, Int.le_sub_one_iff]
  · exact settled_exactly law accepts holds hmature hprice hfarmer hbuyer hbalance
      (exec_eq_ok.mp ((machine tokens self).result_eq_ok.mp hr))

/-- A floor of 100 with a notional of 2, and 6 units of collateral. -/
def flooredTerms : Terms :=
  ⟨⟨1⟩, ⟨2⟩, .other "MAIZE", .literal 100, .literal 2, ⟨5⟩, 1000, ⟨8⟩⟩

def flooredWorld : World (Units Address Address 128) :=
  after Units.ledger ⟨9⟩ endowment
    [signing ⟨1⟩ ⟨2⟩ (.literal 100) (.literal 2) ⟨5⟩ 1000 ⟨8⟩, funding ⟨2⟩ (.literal 6) 10]

theorem settlement_of_small_shortfall :
    (machine Units.ledger ⟨9⟩).Commits flooredWorld (.invoke ⟨⟨1000, []⟩, quoting (.literal 98), .settle⟩) := by
  have holds : flooredWorld.storage.Holds flooredTerms := by constructor <;> decide +kernel
  exact (settlement_exact Units.ledger Units.ledger_exact ⟨9⟩ (Units.ledger_accepts _) flooredWorld flooredTerms holds
    (by decide +kernel) (by decide +kernel) ⟨1000, []⟩ (quoting (.literal 98)) (by decide) ⟨.literal 98, 0⟩ rfl
    (by decide) (by decide) (by decide +kernel)).1.mpr (.inr (by decide +kernel))

end AgriFeed.Pricefloor
