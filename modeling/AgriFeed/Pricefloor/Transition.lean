import AgriFeed.Pricefloor.Contract

/-! Every way an input of an agreement can commit, with its guards and its effect. The executable
agreement commits exactly along these transitions. -/
namespace AgriFeed.Pricefloor
open Foundation

/-- The terms both parties signed. -/
structure Terms where
  farmer : Address
  buyer : Address
  commodity : Asset
  floorPrice : I128
  notional : I128
  settlementToken : Address
  maturity : UInt64
  oracle : Address

namespace Terms

/-- What the oracle of the terms answers for their commodity. -/
def quote (terms : Terms) (feed : Feed) : Option Oracle.PriceData := feed terms.oracle (toOracleAsset terms.commodity)

end Terms

/-- The storage holds all of the terms. -/
structure Storage.Holds (st : Storage) (terms : Terms) : Prop where
  farmer : st.farmer = some terms.farmer
  buyer : st.buyer = some terms.buyer
  commodity : st.commodity = some terms.commodity
  floorPrice : st.floorPrice = some terms.floorPrice
  notional : st.notional = some terms.notional
  settlementToken : st.settlementToken = some terms.settlementToken
  maturity : st.maturity = some terms.maturity
  oracle : st.oracle = some terms.oracle

/-- A storage holds one set of terms. -/
theorem Storage.Holds.unique {st : Storage} {a b : Terms} (ha : st.Holds a) (hb : st.Holds b) : a = b := by
  obtain ⟨_, _, _, _, _, _, _, _⟩ := a
  obtain ⟨_, _, _, _, _, _, _, _⟩ := b
  cases ha.farmer.symm.trans hb.farmer
  cases ha.buyer.symm.trans hb.buyer
  cases ha.commodity.symm.trans hb.commodity
  cases ha.floorPrice.symm.trans hb.floorPrice
  cases ha.notional.symm.trans hb.notional
  cases ha.settlementToken.symm.trans hb.settlementToken
  cases ha.maturity.symm.trans hb.maturity
  cases ha.oracle.symm.trans hb.oracle
  rfl

variable {L : Type} {tokens : Tokens L} {self : Address}

section
variable (tokens self)

inductive Transition (w : World L) : Input → Output → World L → Prop where
  | initializeContract {env : Env} {feed : Feed} {farmer buyer : Address} {commodity : Asset}
      {floorPrice notional : I128} {settlementToken : Address} {maturityTs : UInt64} {oracle : Address}
      (farmerSigned : farmer ∈ env.auths) (buyerSigned : buyer ∈ env.auths) (fresh : w.storage.farmer = none) :
      Transition w (.invoke ⟨env, feed, .initializeContract farmer buyer commodity floorPrice notional settlementToken
          maturityTs oracle⟩)
        (.unit, [.initialized farmer buyer commodity floorPrice notional maturityTs])
        ⟨{ w.storage with
          farmer := some farmer
          buyer := some buyer
          commodity := some commodity
          floorPrice := some floorPrice
          notional := some notional
          settlementToken := some settlementToken
          maturity := some maturityTs
          oracle := some oracle
          funded := some false
          settled := some false }, w.ledger⟩
  | fund {env : Env} {feed : Feed} {buyer token : Address} {amount : I128} {ledger : L} (signed : buyer ∈ env.auths)
      (stored : w.storage.buyer = some buyer) (positive : 0 < amount)
      (unfunded : w.storage.funded.getD false = false) (unsettled : w.storage.settled.getD false = false)
      (denominated : w.storage.settlementToken = some token)
      (moved : tokens.transfer w.ledger token buyer self amount = some ledger) :
      Transition w (.invoke ⟨env, feed, .fund buyer amount⟩) (.unit, [.funded buyer amount])
        ⟨{ w.storage with funded := some true }, ledger⟩
  | settle {env : Env} {feed : Feed} {terms : Terms} {record : Oracle.PriceData} {payout refund : I128} {mid ledger : L}
      (unsettled : w.storage.settled.getD false = false) (funded : w.storage.funded = some true)
      (holds : w.storage.Holds terms) (mature : terms.maturity ≤ env.timestamp)
      (priced : terms.quote feed = some record)
      (divided : settlementShares terms.floorPrice terms.notional record.price
        (tokens.balance w.ledger terms.settlementToken self) = .ok (payout, refund))
      (farmerPaid : payOut tokens self w.ledger terms.settlementToken terms.farmer payout = .ok mid)
      (buyerPaid : payOut tokens self mid terms.settlementToken terms.buyer refund = .ok ledger) :
      Transition w (.invoke ⟨env, feed, .settle⟩) (.payout payout, [.settled terms.farmer payout record.price])
        ⟨{ w.storage with settled := some true }, ledger⟩
  | cancelFunded {env : Env} {feed : Feed} {caller farmer buyer token oracle : Address} {commodity : Asset}
      {maturity : UInt64} {ledger : L} (signed : caller ∈ env.auths) (farmerStored : w.storage.farmer = some farmer)
      (buyerStored : w.storage.buyer = some buyer) (party : caller = farmer ∨ caller = buyer)
      (unsettled : w.storage.settled.getD false = false) (denominated : w.storage.settlementToken = some token)
      (funded : w.storage.funded = some true) (maturityStored : w.storage.maturity = some maturity)
      (elapsed : saturatingAdd maturity settleFailureGrace ≤ env.timestamp)
      (oracleStored : w.storage.oracle = some oracle) (commodityStored : w.storage.commodity = some commodity)
      (unpriced : feed oracle (toOracleAsset commodity) = none)
      (refunded : payOut tokens self w.ledger token buyer (tokens.balance w.ledger token self) = .ok ledger) :
      Transition w (.invoke ⟨env, feed, .cancel caller⟩) (.unit, [.cancelled caller])
        ⟨{ w.storage with funded := some false, cancelled := some true }, ledger⟩
  | cancelUnfunded {env : Env} {feed : Feed} {caller farmer buyer token : Address} {maturity : UInt64}
      (signed : caller ∈ env.auths) (farmerStored : w.storage.farmer = some farmer)
      (buyerStored : w.storage.buyer = some buyer) (party : caller = farmer ∨ caller = buyer)
      (unsettled : w.storage.settled.getD false = false) (denominated : w.storage.settlementToken = some token)
      (unfunded : w.storage.funded.getD false = false) (maturityStored : w.storage.maturity = some maturity)
      (elapsed : saturatingAdd maturity unfundedCancelGrace ≤ env.timestamp) :
      Transition w (.invoke ⟨env, feed, .cancel caller⟩) (.unit, [.cancelled caller])
        ⟨{ w.storage with cancelled := some true }, w.ledger⟩
  | transfer {token sender receiver : Address} {amount : I128} {ledger : L} (outside : sender ≠ self)
      (moved : tokens.transfer w.ledger token sender receiver amount = some ledger) :
      Transition w (.transfer token sender receiver amount) (.unit, []) { w with ledger := ledger }

end

section Inversion
variable {w w' : World L} {env : Env} {feed : Feed} {out : Output}

@[simp] theorem transfer_eq_ok {ledger ledger' : L} {token sender receiver : Address} {amount : I128} :
    transfer tokens ledger token sender receiver amount = .ok ledger' ↔
      tokens.transfer ledger token sender receiver amount = some ledger' := by
  unfold transfer
  cases tokens.transfer ledger token sender receiver amount <;> simp

private theorem getD_false_iff {o : Option Bool} : ¬ o.getD false = true ↔ o.getD false = false := by simp

private theorem getD_true_iff {o : Option Bool} : o.getD false = true ↔ o = some true := by
  cases o <;> simp

private theorem party_iff {caller farmer buyer : Address} :
    ¬ (caller ≠ farmer ∧ caller ≠ buyer) ↔ caller = farmer ∨ caller = buyer := by
  rw [not_and_or, not_not, not_not]

private theorem initializeContract_iff {farmer buyer : Address} {commodity : Asset} {floorPrice notional : I128}
    {settlementToken : Address} {maturityTs : UInt64} {oracle : Address} :
    (initializeContract env w farmer buyer commodity floorPrice notional settlementToken maturityTs oracle).map
        Receipt.done = .ok (out, w') ↔
      Transition tokens self w (.invoke ⟨env, feed, .initializeContract farmer buyer commodity floorPrice notional
        settlementToken maturityTs oracle⟩) out w' := by
  simp only [map_eq_ok, initializeContract, bind_eq_ok, requireAuth_eq_ok, failIf_eq_ok]
  constructor
  · rintro ⟨_, ⟨_, hf, _, hb, _, hn, hr⟩, he⟩
    cases hr; cases he
    exact .initializeContract hf hb (by simpa using hn)
  · intro h
    cases h with
    | initializeContract hf hb hn => exact ⟨_, ⟨(), hf, (), hb, (), by simp [hn], rfl⟩, rfl⟩

private theorem fund_iff {buyer : Address} {amount : I128} :
    (fund tokens self env w buyer amount).map Receipt.done = .ok (out, w') ↔
      Transition tokens self w (.invoke ⟨env, feed, .fund buyer amount⟩) out w' := by
  simp only [map_eq_ok, fund, bind_eq_ok, requireAuth_eq_ok, failIf_eq_ok, okOr_eq_ok, transfer_eq_ok, not_not,
    not_le, getD_false_iff]
  constructor
  · rintro ⟨_, ⟨_, hs, _, hb, _, rfl, _, hp, _, hu, _, hn, token, ht, ledger, hm, hr⟩, he⟩
    cases hr; cases he
    exact .fund hs hb hp hu hn ht hm
  · intro h
    cases h with
    | fund hs hb hp hu hn ht hm => exact ⟨_, ⟨(), hs, _, hb, (), rfl, (), hp, (), hu, (), hn, _, ht, _, hm, rfl⟩, rfl⟩

private theorem settle_iff :
    (settle tokens self env feed w).map Receipt.paid = .ok (out, w') ↔
      Transition tokens self w (.invoke ⟨env, feed, .settle⟩) out w' := by
  simp only [map_eq_ok, settle, bind_eq_ok, failIf_eq_ok, okOr_eq_ok, not_not, UInt64.not_lt]
  constructor
  · rintro ⟨_, ⟨_, hs, maturity, hm, _, ht, _, hf, farmer, hfa, buyer, hbu, commodity, hco, floorPrice, hfl, notional,
      hno, token, hto, oracle, hor, record, hre, ⟨payout, refund⟩, hd, mid, hp, ledger, hb, hr⟩, he⟩
    cases hr; cases he
    have hh : w.storage.Holds ⟨farmer, buyer, commodity, floorPrice, notional, token, maturity, oracle⟩ :=
      ⟨hfa, hbu, hco, hfl, hno, hto, hm, hor⟩
    exact .settle (getD_false_iff.mp hs) (getD_true_iff.mp hf) hh ht hre hd hp hb
  · intro h
    cases h with
    | settle hs hf hh ht hre hd hp hb =>
      exact ⟨_, ⟨(), getD_false_iff.mpr hs, _, hh.maturity, (), ht, (), getD_true_iff.mpr hf, _, hh.farmer, _, hh.buyer,
        _, hh.commodity, _, hh.floorPrice,
        _, hh.notional, _, hh.settlementToken, _, hh.oracle, _, hre, _, hd, _, hp, _, hb, rfl⟩, rfl⟩

private theorem cancel_iff {caller : Address} :
    (cancel tokens self env feed w caller).map Receipt.done = .ok (out, w') ↔
      Transition tokens self w (.invoke ⟨env, feed, .cancel caller⟩) out w' := by
  simp only [map_eq_ok, cancel, bind_eq_ok, requireAuth_eq_ok, failIf_eq_ok, okOr_eq_ok]
  constructor
  · rintro ⟨_, ⟨_, hs, farmer, hfa, buyer, hbu, _, hc, _, hn, token, hto, hr⟩, he⟩
    rw [party_iff] at hc
    rw [getD_false_iff] at hn
    split at hr
    · rename_i hf
      simp only [bind_eq_ok, failIf_eq_ok, okOr_eq_ok] at hr
      obtain ⟨maturity, hm, _, ht, oracle, hor, commodity, hco, _, hq, ledger, hp, hr⟩ := hr
      cases hr; cases he
      have hnone : feed oracle (toOracleAsset commodity) = none := by simpa using hq
      exact .cancelFunded hs hfa hbu hc hn hto (getD_true_iff.mp hf) hm (UInt64.not_lt.mp ht) hor hco hnone hp
    · rename_i hf
      simp only [bind_eq_ok, failIf_eq_ok, okOr_eq_ok] at hr
      obtain ⟨maturity, hm, _, ht, hr⟩ := hr
      cases hr; cases he
      exact .cancelUnfunded hs hfa hbu hc hn hto (getD_false_iff.mp hf) hm (UInt64.not_lt.mp ht)
  · intro h
    cases h with
    | cancelFunded hs hfa hbu hc hn hto hf hm ht hor hco hq hp =>
      simp only [if_pos (getD_true_iff.mpr hf), bind_eq_ok, failIf_eq_ok, okOr_eq_ok]
      exact ⟨_, ⟨(), hs, _, hfa, _, hbu, (), party_iff.mpr hc, (), getD_false_iff.mpr hn, _, hto, _, hm, (),
        UInt64.not_lt.mpr ht, _, hor, _, hco, (), by simp [hq], _, hp, rfl⟩, rfl⟩
    | cancelUnfunded hs hfa hbu hc hn hto hf hm ht =>
      simp only [if_neg (getD_false_iff.mpr hf), bind_eq_ok, failIf_eq_ok, okOr_eq_ok]
      exact ⟨_, ⟨(), hs, _, hfa, _, hbu, (), party_iff.mpr hc, (), getD_false_iff.mpr hn, _, hto, _, hm, (),
        UInt64.not_lt.mpr ht, rfl⟩, rfl⟩

private theorem transferOutside_iff {token sender receiver : Address} {amount : I128} :
    transferOutside tokens self w token sender receiver amount = .ok (out, w') ↔
      Transition tokens self w (.transfer token sender receiver amount) out w' := by
  unfold transferOutside
  constructor
  · intro h
    split at h
    · cases h
    · rename_i hs
      obtain ⟨ledger, hm, he⟩ := map_eq_ok.mp h
      cases he
      exact .transfer hs (transfer_eq_ok.mp hm)
  · intro h
    cases h with
    | transfer hs hm =>
      rw [if_neg hs]
      exact map_eq_ok.mpr ⟨_, transfer_eq_ok.mpr hm, rfl⟩

end Inversion

/-- The executable agreement commits exactly along its transitions. -/
theorem exec_eq_ok {w w' : World L} {input : Input} {out : Output} :
    (machine tokens self).exec w input = .ok (out, w') ↔ Transition tokens self w input out w' := by
  cases input with
  | invoke tx =>
    obtain ⟨env, feed, call⟩ := tx
    cases call with
    | initializeContract => exact initializeContract_iff
    | fund => exact fund_iff
    | settle => exact settle_iff
    | cancel => exact cancel_iff
  | transfer => exact transferOutside_iff

theorem commits_iff {w : World L} {input : Input} :
    (machine tokens self).Commits w input ↔ ∃ out w', Transition tokens self w input out w' := by
  simp only [(machine tokens self).commits_iff, exec_eq_ok]

end AgriFeed.Pricefloor
