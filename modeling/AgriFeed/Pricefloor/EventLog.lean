import AgriFeed.Pricefloor.Escrow
import AgriFeed.Pricefloor.Payouts

/-! The events of an agreement as a book that can be checked without the chain. An auditor who enters them knows what
the agreement stores but for its addresses of token and oracle, and the books that add up are exactly those
that an agreement can have written. -/
namespace AgriFeed.Pricefloor
open Foundation

/-- What an auditor keeps of an agreement: the terms and flags that events tell, and the latest deposit. -/
structure Book where
  farmer : Option Address
  buyer : Option Address
  commodity : Option Asset
  floorPrice : Option I128
  notional : Option I128
  maturity : Option UInt64
  funded : Option Bool
  settled : Option Bool
  cancelled : Option Bool
  deposit : I128

/-- A payout that a price allows out of the deposit, or out of more of it if donations were made. -/
def Fair (floorPrice notional marketPrice deposit payout : I128) : Prop :=
  Settleable floorPrice notional marketPrice ∧
    payout.val = owed floorPrice.val notional.val marketPrice.val (max deposit.val payout.val)

instance (floorPrice notional marketPrice : I128) : Decidable (Settleable floorPrice notional marketPrice) :=
  inferInstanceAs (Decidable (_ ∨ _))

instance (floorPrice notional marketPrice deposit payout : I128) :
    Decidable (Fair floorPrice notional marketPrice deposit payout) :=
  inferInstanceAs (Decidable (_ ∧ _))

namespace Book

/-- Before any event. -/
def blank : Book := ⟨none, none, none, none, none, none, none, none, none, 0⟩

/-- The stored state as an auditor sees it. -/
def ofStorage (deposit : I128) (st : Storage) : Book :=
  ⟨st.farmer, st.buyer, st.commodity, st.floorPrice, st.notional, st.maturity, st.funded, st.settled, st.cancelled,
    deposit⟩

def enter (book : Book) : Event → Book
  | .initialized farmer buyer commodity floorPrice notional maturityTs => { book with
      farmer := some farmer
      buyer := some buyer
      commodity := some commodity
      floorPrice := some floorPrice
      notional := some notional
      maturity := some maturityTs
      funded := some false
      settled := some false }
  | .funded _ amount => { book with funded := some true, deposit := amount }
  | .settled _ _ _ => { book with settled := some true }
  | .cancelled _ => { book with funded := some false, cancelled := some true }

/-- What the next event may be, for an agreement at the given address. -/
def Allows (self : Address) (book : Book) : Event → Prop
  | .initialized farmer buyer _ _ _ _ => book.farmer = none ∧ farmer ≠ self ∧ buyer ≠ self
  | .funded buyer amount => book.buyer = some buyer ∧ book.funded = some false ∧ 0 < amount
  | .settled farmer payout marketPrice =>
    book.farmer = some farmer ∧ book.funded = some true ∧ book.settled = some false ∧
      ∀ floorPrice ∈ book.floorPrice, ∀ notional ∈ book.notional,
        Fair floorPrice notional marketPrice book.deposit payout
  | .cancelled caller => (book.farmer = some caller ∨ book.buyer = some caller) ∧ book.settled = some false

instance decidableAllows (self : Address) (book : Book) : ∀ event, Decidable (book.Allows self event)
  | .initialized .. => inferInstanceAs (Decidable (_ ∧ _))
  | .funded .. => inferInstanceAs (Decidable (_ ∧ _))
  | .settled .. => inferInstanceAs (Decidable (_ ∧ _))
  | .cancelled _ => inferInstanceAs (Decidable (_ ∧ _))

/-- Every event is allowed where it stands. -/
def Accepts (self : Address) : Book → List Event → Prop
  | _, [] => True
  | book, event :: events => book.Allows self event ∧ Accepts self (book.enter event) events

instance decidableAccepts (self : Address) : ∀ book events, Decidable (Accepts self book events)
  | _, [] => isTrue trivial
  | book, event :: events =>
    have := decidableAccepts self (book.enter event) events
    inferInstanceAs (Decidable (book.Allows self event ∧ Accepts self (book.enter event) events))

theorem accepts_append {self : Address} {book : Book} {events more : List Event} :
    book.Accepts self (events ++ more) ↔ book.Accepts self events ∧ (events.foldl enter book).Accepts self more := by
  induction events generalizing book with
  | nil => simp [Accepts]
  | cons event events ih => simp only [List.cons_append, Accepts, ih, List.foldl_cons, and_assoc]

/-- Nothing follows a settlement. -/
theorem nil_of_settled {self : Address} {book : Book} (hfarmer : book.farmer ≠ none) (hfunded : book.funded = some true)
    (hsettled : book.settled = some true) {events : List Event} (h : book.Accepts self events) : events = [] := by
  cases events with
  | nil => rfl
  | cons event events =>
    have hallowed := h.1
    cases event with
    | initialized => exact absurd hallowed.1 hfarmer
    | funded => cases hfunded.symm.trans hallowed.2.1
    | settled => cases hsettled.symm.trans hallowed.2.2.1
    | cancelled => cases hsettled.symm.trans hallowed.2

end Book

/-- What a committed input has published. -/
def published {L : Type} (_ : World L) (_ : Input) (out : Output) : List Event := out.2

section Soundness
variable {L : Type} {tokens : Tokens L} {self : Address} {w w' : World L} {input : Input} {out : Output} {book : Book}

/-- The book tells the flags and terms, and the deposit is there as long as it is due. -/
structure Audited (tokens : Tokens L) (contract : Address) (book : Book) (w : World L) : Prop where
  reads : book = .ofStorage book.deposit w.storage
  covered : w.storage.funded = some true → w.storage.settled ≠ some true → ∀ token,
    w.storage.settlementToken = some token → book.deposit.val ≤ (tokens.balance w.ledger token contract).val

/-- What is owed of the collateral there is, is also owed of as much of it as the deposit and the payout need. -/
private theorem owed_of_collateral {floorPrice notional marketPrice deposit payout collateral : Int}
    (h : payout = owed floorPrice notional marketPrice collateral) (hd : deposit ≤ collateral) :
    payout = owed floorPrice notional marketPrice (max deposit payout) := by
  unfold owed at h ⊢
  by_cases hm : floorPrice ≤ marketPrice
  · rwa [if_pos hm] at h ⊢
  · rw [if_neg hm] at h ⊢
    generalize (floorPrice - marketPrice) * notional = gross at h ⊢
    omega

/-- An agreement with parties has stored its flags, so that what reads as false is false. -/
private theorem stored_false {st : Storage} {buyer : Address} (hc : Coherent st) (hb : st.buyer = some buyer) :
    (st.funded.getD false = false → st.funded = some false) ∧
      (st.settled.getD false = false → st.settled = some false) := by
  cases hc with
  | fresh h =>
    rw [h] at hb
    exact absurd hb.symm (Option.some_ne_none buyer)
  | agreed _ _ funded settled hf hs =>
    rw [hf, hs]
    exact ⟨congrArg some, congrArg some⟩

private theorem party_stored {st : Storage} {caller farmer buyer : Address} (hf : st.farmer = some farmer)
    (hb : st.buyer = some buyer) (h : caller = farmer ∨ caller = buyer) :
    st.farmer = some caller ∨ st.buyer = some caller := by
  rcases h with rfl | rfl
  · exact .inl hf
  · exact .inr hb

/-- What an input publishes is allowed, and the book with it entered is again that of the agreement. -/
private theorem audited_step (law : tokens.Exact) (hi : ∀ token, Escrowed tokens self token w)
    (hp : input.LeavesOut self) (ha : Audited tokens self book w) (ht : Transition tokens self w input out w') :
    book.Accepts self out.2 ∧ Audited tokens self (out.2.foldl Book.enter book) w' := by
  have houtside := signed_outside hp ht
  have hcoherent : Coherent w.storage := (hi self).coherent
  rw [ha.reads]
  cases ht with
  | @initializeContract _ _ farmer buyer _ _ _ _ _ _ _ _ hfresh =>
    have hfarmer : farmer ≠ self := fun he => houtside (by simp [Input.parties, he])
    have hbuyer : buyer ≠ self := fun he => houtside (by simp [Input.parties, he])
    exact ⟨⟨⟨hfresh, hfarmer, hbuyer⟩, trivial⟩, rfl, fun hf => absurd hf (by simp)⟩
  | @fund _ _ buyer token amount _ _ hbuyer hpos hunfunded hunsettled htoken hmoved =>
    have hother : buyer ≠ self := by
      rintro rfl
      exact (hi token).outside (Storage.mem_parties.mpr (.inr hbuyer))
    have hfalse := (stored_false hcoherent hbuyer).1 hunfunded
    refine ⟨⟨⟨hbuyer, hfalse, hpos⟩, trivial⟩, rfl, fun _ _ t ht => ?_⟩
    cases htoken.symm.trans ht
    change amount.val ≤ (tokens.balance _ token self).val
    have hsolvent := (hi token).solvent
    rw [law.received hmoved hother]
    omega
  | @settle _ _ terms _ _ _ _ _ hunsettled hfunded hh hmature hq hd hfirst hsecond =>
    have hfalse := (stored_false hcoherent hh.buyer).2 hunsettled
    have hsolvent := (hi terms.settlementToken).solvent
    have hsettled : Transition tokens self w _ _ _ := .settle hunsettled hfunded hh hmature hq hd hfirst hsecond
    obtain ⟨_, _, hquote, hsettleable, hout, howed⟩ := hsettled.settle_owed law hh hsolvent
    cases hquote.symm.trans hq
    cases hout
    refine ⟨⟨⟨hh.farmer, hfunded, hfalse, ?_⟩, trivial⟩, rfl, fun _ hs => absurd rfl hs⟩
    intro floorPrice hfloor notional hnotional
    cases hfloor.symm.trans hh.floorPrice
    cases hnotional.symm.trans hh.notional
    have hcovered := ha.covered hfunded (by simp [hfalse]) _ hh.settlementToken
    exact ⟨hsettleable, owed_of_collateral howed hcovered⟩
  | cancelFunded _ hfarmer hbuyer hparty hunsettled =>
    have hfalse := (stored_false hcoherent hbuyer).2 hunsettled
    exact ⟨⟨⟨party_stored hfarmer hbuyer hparty, hfalse⟩, trivial⟩, rfl, fun hf => absurd hf (by simp)⟩
  | cancelUnfunded _ hfarmer hbuyer hparty hunsettled _ hunfunded =>
    obtain ⟨hfunded, hfalse⟩ := stored_false hcoherent hbuyer
    refine ⟨⟨⟨party_stored hfarmer hbuyer hparty, hfalse hunsettled⟩, trivial⟩, ?_, fun hf => ?_⟩
    · simp only [List.foldl_cons, List.foldl_nil, Book.enter, Book.ofStorage, hfunded hunfunded]
    · cases (hfunded hunfunded).symm.trans hf
  | transfer hs hm =>
    exact ⟨trivial, rfl, fun hf hu token htoken =>
      (ha.covered hf hu token htoken).trans (law.not_lowered hm hs.symm token)⟩

/-- Whatever is called on an agreement and moved around it, the book of its events is accepted and tells its state. -/
private theorem audited_run (law : tokens.Exact) {ledger : L}
    (solvent : ∀ token, 0 ≤ (tokens.balance ledger token self).val) {inputs : List Input}
    (hp : ∀ input ∈ inputs, input.LeavesOut self) :
    Book.blank.Accepts self ((machine tokens self).log published ⟨.deployed, ledger⟩ inputs) ∧
      Audited tokens self (((machine tokens self).log published ⟨.deployed, ledger⟩ inputs).foldl Book.enter .blank)
        (after tokens self ledger inputs) := by
  have hstart : Book.blank.Accepts self [] ∧ Audited tokens self .blank ⟨.deployed, ledger⟩ :=
    ⟨trivial, rfl, fun hf => nomatch hf⟩
  have halong : (machine tokens self).Along
      (fun w input => (∀ token, Escrowed tokens self token w) ∧ input.LeavesOut self) ⟨.deployed, ledger⟩ inputs := by
    refine ((machine tokens self).along_iff _ _ _).mpr fun pre input post hi => ?_
    have hone (token : Address) := ((machine tokens self).along_iff _ _ _).mp
      (along_escrowed law (solvent token) hp).1 pre input post hi
    exact ⟨fun token => (hone token).1, (hone self).2⟩
  refine (machine tokens self).log_invariant published (fun events w => Book.blank.Accepts self events ∧
    Audited tokens self (events.foldl Book.enter .blank) w) ?_ hstart halong
  rintro events w input out w' ⟨haccepts, haudited⟩ ⟨hi, hp⟩ he
  obtain ⟨hnext, haudited⟩ := audited_step law hi hp haudited (exec_eq_ok.mp he)
  rw [List.foldl_append]
  exact ⟨Book.accepts_append.mpr ⟨haccepts, hnext⟩, haudited⟩

end Soundness

section Realization
variable {L : Type} {tokens : Tokens L} {self : Address} {w : World L} {terms : Terms} {book : Book}

/-- By the end of time every agreement is mature and every grace period is over. -/
def endOfTime : UInt64 := 18446744073709551615

private theorem le_endOfTime (time : UInt64) : time ≤ endOfTime := by
  have h := time.toNat_lt
  rw [UInt64.le_iff_toNat_le, endOfTime]
  simp only [UInt64.toNat_ofNat]
  omega

/-- An agreement before its next event, at a time when its buyer has all of the token but for the deposit. -/
structure Poised (tokens : Tokens L) (contract : Address) (terms : Terms) (book : Book) (w : World L) : Prop where
  holds : w.storage.Holds terms
  reads : book = .ofStorage book.deposit w.storage
  unsettled : w.storage.settled = some false
  held : w.storage.funded = some true ∧ 0 < book.deposit.val ∧
      (tokens.balance w.ledger terms.settlementToken contract).val = book.deposit.val ∨
    w.storage.funded = some false ∧ (tokens.balance w.ledger terms.settlementToken contract).val = 0
  rest : (tokens.balance w.ledger terms.settlementToken terms.buyer).val +
    (tokens.balance w.ledger terms.settlementToken contract).val = 2 ^ 127 - 1

/-- What one committed input publishes, and the state it leaves. -/
private theorem one_input {w' : World L} {input : Input} {out : Output} (ht : Transition tokens self w input out w') :
    (machine tokens self).log published w [input] = out.2 ∧ (machine tokens self).run w [input] = w' := by
  have he := exec_eq_ok.mpr ht
  constructor
  · rw [(machine tokens self).log_commit published he, Machine.log_nil, List.append_nil]
    rfl
  · exact (machine tokens self).step_commit he

/-- Some inputs, none of which signs new terms, that publish the event. Then the agreement is ready for the next one,
if any can follow. -/
def Publishes (tokens : Tokens L) (contract : Address) (terms : Terms) (book : Book) (w : World L) (event : Event) :
    Prop :=
  ∃ inputs, (∀ input ∈ inputs, input.parties = []) ∧ (machine tokens contract).log published w inputs = [event] ∧
    ((∀ events, (book.enter event).Accepts contract events → events = []) ∨
      Poised tokens contract terms (book.enter event) ((machine tokens contract).run w inputs))

private theorem publishes_funded (law : tokens.Exact) (accepts : ∀ holder, tokens.Accepts holder)
    (hself : terms.buyer ≠ self) (h : Poised tokens self terms book w) {buyer : Address} {amount : I128}
    (ha : book.Allows self (.funded buyer amount)) : Publishes tokens self terms book w (.funded buyer amount) := by
  obtain ⟨hbuyer, hfunded, hpos⟩ := ha
  rw [h.reads] at hbuyer hfunded
  cases h.holds.buyer.symm.trans hbuyer
  change w.storage.funded = some false at hfunded
  have hzero := (h.held.resolve_left fun hf => nomatch hf.1.symm.trans hfunded).2
  have hrest := h.rest
  have hamount := amount.inRange.2
  obtain ⟨ledger, hmoved⟩ := Option.isSome_iff_exists.mp
    (accepts terms.buyer w.ledger terms.settlementToken self amount ((SignedInt.lt_iff 0 amount).mp hpos).le (by omega))
  have ht : Transition tokens self w (funding terms.buyer amount endOfTime) _ _ :=
    .fund List.mem_cons_self h.holds.buyer hpos (by rw [hfunded]; rfl) (by rw [h.unsettled]; rfl)
      h.holds.settlementToken hmoved
  obtain ⟨hlog, hrun⟩ := one_input ht
  refine ⟨[funding terms.buyer amount endOfTime], by simp [funding, Input.parties], hlog, .inr ?_⟩
  have hsent := law.sent hmoved hself
  have hreceived := law.received hmoved hself
  rw [hrun, h.reads]
  refine ⟨{ h.holds with }, rfl, h.unsettled, .inl ⟨rfl, (SignedInt.lt_iff 0 amount).mp hpos, ?_⟩, ?_⟩
  · change (tokens.balance ledger _ self).val = amount.val
    omega
  · change (tokens.balance ledger _ _).val + (tokens.balance ledger _ self).val = _
    omega

private theorem publishes_cancelled (law : tokens.Exact) (accepts : ∀ holder, tokens.Accepts holder)
    (hself : terms.buyer ≠ self) (h : Poised tokens self terms book w) {caller : Address}
    (ha : book.Allows self (.cancelled caller)) : Publishes tokens self terms book w (.cancelled caller) := by
  obtain ⟨hparty, _⟩ := ha
  rw [h.reads] at hparty
  have hcaller : caller = terms.farmer ∨ caller = terms.buyer := by
    rcases hparty with hp | hp
    · exact .inl (Option.some.inj (hp.symm.trans h.holds.farmer))
    · exact .inr (Option.some.inj (hp.symm.trans h.holds.buyer))
  have hquiet : w.storage.settled.getD false = false := by rw [h.unsettled]; rfl
  have hrest := h.rest
  rcases h.held with ⟨hfunded, hpos, hheld⟩ | ⟨hfunded, hzero⟩
  · obtain ⟨ledger, hrefund⟩ := exists_payOut terms.settlementToken terms.buyer (accepts self)
      (le_refl (tokens.balance w.ledger terms.settlementToken self).val)
    have ht : Transition tokens self w (cancellation silent caller endOfTime) _ _ :=
      .cancelFunded List.mem_cons_self h.holds.farmer h.holds.buyer hcaller hquiet h.holds.settlementToken hfunded
        h.holds.maturity (le_endOfTime _) h.holds.oracle h.holds.commodity rfl hrefund
    obtain ⟨hlog, hrun⟩ := one_input ht
    refine ⟨[cancellation silent caller endOfTime], by simp [cancellation, Input.parties], hlog, .inr ?_⟩
    have hfrom := payOut_moved law hrefund self
    have hto := payOut_moved law hrefund terms.buyer
    rw [if_pos rfl, if_neg hself.symm] at hfrom
    rw [if_neg hself, if_pos rfl] at hto
    rw [hrun, h.reads]
    refine ⟨{ h.holds with }, rfl, h.unsettled, .inr ⟨rfl, ?_⟩, ?_⟩
    · change (tokens.balance ledger _ self).val = 0
      omega
    · change (tokens.balance ledger _ _).val + (tokens.balance ledger _ self).val = _
      omega
  · have ht : Transition tokens self w (cancellation silent caller endOfTime) _ _ :=
      .cancelUnfunded List.mem_cons_self h.holds.farmer h.holds.buyer hcaller hquiet h.holds.settlementToken
        (by rw [hfunded]; rfl) h.holds.maturity (le_endOfTime _)
    obtain ⟨hlog, hrun⟩ := one_input ht
    refine ⟨[cancellation silent caller endOfTime], by simp [cancellation, Input.parties], hlog, .inr ?_⟩
    rw [hrun, h.reads]
    refine ⟨{ h.holds with }, ?_, h.unsettled, .inr ⟨hfunded, hzero⟩, hrest⟩
    simp only [Book.enter, Book.ofStorage, hfunded]

/-- The buyer donates what a payout needs beyond the deposit. -/
private theorem exists_donation (law : tokens.Exact) (accepts : ∀ holder, tokens.Accepts holder)
    (hself : terms.buyer ≠ self) (h : Poised tokens self terms book w) (hfunded : w.storage.funded = some true)
    (payout : I128) :
    ∃ amount ledger, tokens.transfer w.ledger terms.settlementToken terms.buyer self amount = some ledger ∧
      (tokens.balance ledger terms.settlementToken self).val = max book.deposit.val payout.val := by
  obtain ⟨_, hpos, hheld⟩ := h.held.resolve_right fun hf => nomatch hf.1.symm.trans hfunded
  have hrest := h.rest
  have hpayout := payout.inRange.2
  have hdeposit := book.deposit.inRange.2
  have hrange : InRange 128 (max book.deposit.val payout.val - book.deposit.val) := by
    constructor <;> omega
  obtain ⟨amount, hamount⟩ : ∃ amount : I128, amount.val = max book.deposit.val payout.val - book.deposit.val :=
    ⟨⟨_, hrange⟩, rfl⟩
  obtain ⟨ledger, hmoved⟩ := Option.isSome_iff_exists.mp
    (accepts terms.buyer w.ledger terms.settlementToken self amount (by omega) (by omega))
  refine ⟨amount, ledger, hmoved, ?_⟩
  rw [law.received hmoved hself]
  omega

/-- With a collateral that makes it fair, the payout is what a settlement at the price pays. -/
private theorem settles_fairly (law : tokens.Exact) (accepts : tokens.Accepts self) (holds : w.storage.Holds terms)
    (hfarmer : terms.farmer ≠ self) (hself : terms.buyer ≠ self) (hfunded : w.storage.funded = some true)
    (hunsettled : w.storage.settled = some false) {deposit payout marketPrice : I128} (hpos : 0 < deposit.val)
    (hfair : Fair terms.floorPrice terms.notional marketPrice deposit payout)
    (hheld : (tokens.balance w.ledger terms.settlementToken self).val = max deposit.val payout.val) :
    ∃ w', Transition tokens self w (settlement (quoting marketPrice) endOfTime)
      (.payout payout, [.settled terms.farmer payout marketPrice]) w' := by
  have hbalance : 0 < (tokens.balance w.ledger terms.settlementToken self).val := by omega
  have hquote : terms.quote (quoting marketPrice) = some ⟨marketPrice, 0⟩ := rfl
  have hcommits : (machine tokens self).Commits w (settlement (quoting marketPrice) endOfTime) :=
    (settle_commits_iff law accepts holds hfunded (by rw [hunsettled]; rfl) hbalance.le (le_endOfTime _)).mpr
      ⟨⟨marketPrice, 0⟩, hquote, hfair.1⟩
  obtain ⟨out, w', ht⟩ := commits_iff.mp hcommits
  obtain ⟨paid, hout, howed, _⟩ := settled_exactly law accepts holds (le_endOfTime _) hquote hfarmer hself hbalance ht
  have hpaid : paid = payout := by
    apply SignedInt.ext
    rw [howed, hheld]
    exact hfair.2.symm
  rw [hout, hpaid] at ht
  exact ⟨w', ht⟩

private theorem publishes_settled (law : tokens.Exact) (accepts : ∀ holder, tokens.Accepts holder)
    (hfarmer : terms.farmer ≠ self) (hself : terms.buyer ≠ self) (h : Poised tokens self terms book w)
    {farmer : Address} {payout marketPrice : I128} (ha : book.Allows self (.settled farmer payout marketPrice)) :
    Publishes tokens self terms book w (.settled farmer payout marketPrice) := by
  obtain ⟨hstored, hflag, _, hterms⟩ := ha
  have hfarmerKept : (book.enter (.settled farmer payout marketPrice)).farmer ≠ none := by
    change book.farmer ≠ none
    rw [hstored]
    nofun
  have hfundedKept : (book.enter (.settled farmer payout marketPrice)).funded = some true := hflag
  have hfair : Fair terms.floorPrice terms.notional marketPrice book.deposit payout := by
    rw [h.reads] at hterms
    exact hterms _ h.holds.floorPrice _ h.holds.notional
  have hfunded : w.storage.funded = some true := by rwa [h.reads] at hflag
  have hpos := (h.held.resolve_right fun hf => nomatch hf.1.symm.trans hfunded).2.1
  rw [h.reads] at hstored
  cases h.holds.farmer.symm.trans hstored
  obtain ⟨amount, ledger, hmoved, hheld⟩ := exists_donation law accepts hself h hfunded payout
  have hdonated : Transition tokens self w (.transfer terms.settlementToken terms.buyer self amount) _
      { w with ledger := ledger } := .transfer hself hmoved
  obtain ⟨w', ht⟩ := settles_fairly (w := { w with ledger := ledger }) law (accepts self) h.holds hfarmer hself hfunded
    h.unsettled hpos hfair hheld
  refine ⟨[.transfer terms.settlementToken terms.buyer self amount, settlement (quoting marketPrice) endOfTime],
    by simp [settlement, Input.parties], ?_, .inl fun _ => Book.nil_of_settled hfarmerKept hfundedKept rfl⟩
  rw [(machine tokens self).log_commit published (exec_eq_ok.mpr hdonated), (one_input ht).1]
  rfl

private theorem publishes (law : tokens.Exact) (accepts : ∀ holder, tokens.Accepts holder)
    (hfarmer : terms.farmer ≠ self) (hself : terms.buyer ≠ self) (h : Poised tokens self terms book w) {event : Event}
    (ha : book.Allows self event) : Publishes tokens self terms book w event := by
  cases event with
  | initialized =>
    have hfresh := ha.1
    rw [h.reads] at hfresh
    cases hfresh.symm.trans h.holds.farmer
  | funded => exact publishes_funded law accepts hself h ha
  | settled => exact publishes_settled law accepts hfarmer hself h ha
  | cancelled => exact publishes_cancelled law accepts hself h ha

/-- An agreement that is ready for one event after the other writes any book that adds up. -/
private theorem poised_run (law : tokens.Exact) (accepts : ∀ holder, tokens.Accepts holder)
    (hfarmer : terms.farmer ≠ self) (hself : terms.buyer ≠ self) {events : List Event}
    (h : Poised tokens self terms book w) (ha : book.Accepts self events) :
    ∃ inputs, (∀ input ∈ inputs, input.parties = []) ∧ (machine tokens self).log published w inputs = events := by
  induction events generalizing book w with
  | nil => exact ⟨[], fun _ hm => (nomatch hm), rfl⟩
  | cons event events ih =>
    obtain ⟨first, hfirst, hlog, hnext⟩ := publishes law accepts hfarmer hself h ha.1
    obtain ⟨rest, hrest, htail⟩ : ∃ rest, (∀ input ∈ rest, input.parties = []) ∧
        (machine tokens self).log published ((machine tokens self).run w first) rest = events := by
      rcases hnext with hlast | hpoised
      · exact ⟨[], fun _ hm => (nomatch hm), (hlast events ha.2).symm⟩
      · exact ih hpoised ha.2
    refine ⟨first ++ rest, fun input hm => ?_, ?_⟩
    · rcases List.mem_append.mp hm with hm | hm
      · exact hfirst input hm
      · exact hrest input hm
    · rw [(machine tokens self).log_append, hlog, htail]
      rfl

end Realization

/-- A token of which one holder has all there can be. -/
def fortune (token holder : Address) : Units Address Address 128 :=
  .issued token (.replicate (2 ^ 127 - 1) holder) (by rw [List.length_replicate]; decide)

section Fortunes
variable {token holder self : Address}

private theorem fortune_balance (token holder : Address) :
    (Units.ledger.balance (fortune token holder) token holder).val = 2 ^ 127 - 1 := by
  change (((if token = token then List.replicate (2 ^ 127 - 1) holder else []).count holder : Nat) : Int) = _
  rw [if_pos rfl, List.count_replicate_self]
  rfl

private theorem fortune_elsewhere (hne : holder ≠ self) (other : Address) :
    (Units.ledger.balance (fortune token holder) other self).val = 0 := by
  change (((if other = token then List.replicate (2 ^ 127 - 1) holder else []).count self : Nat) : Int) = _
  by_cases ht : other = token
  · rw [if_pos ht, List.count_replicate, if_neg (by simpa using hne)]
    rfl
  · rw [if_neg ht]
    rfl

/-- With a fortune of the token in the hands of the buyer, signing the terms leaves the agreement ready. -/
private theorem written_book {farmer buyer : Address} {commodity : Asset} {floorPrice notional : I128}
    {maturityTs : UInt64} {events : List Event} (hfarmer : farmer ≠ self) (hbuyer : buyer ≠ self)
    (ha : (Book.blank.enter (.initialized farmer buyer commodity floorPrice notional maturityTs)).Accepts self events) :
    ∃ (ledger : Units Address Address 128) (inputs : List Input),
      (∀ token, (Units.ledger.balance ledger token self).val = 0) ∧ (∀ input ∈ inputs, self ∉ input.parties) ∧
        (machine Units.ledger self).log published ⟨.deployed, ledger⟩ inputs =
          .initialized farmer buyer commodity floorPrice notional maturityTs :: events := by
  obtain ⟨input, w, hparties, ht, hpoised⟩ : ∃ input w, input.parties = [farmer, buyer] ∧
      Transition Units.ledger self ⟨.deployed, fortune ⟨0⟩ buyer⟩ input
        (.unit, [.initialized farmer buyer commodity floorPrice notional maturityTs]) w ∧
      Poised Units.ledger self ⟨farmer, buyer, commodity, floorPrice, notional, ⟨0⟩, maturityTs, ⟨0⟩⟩
        (Book.blank.enter (.initialized farmer buyer commodity floorPrice notional maturityTs)) w := by
    refine ⟨.invoke ⟨⟨0, [farmer, buyer]⟩, silent,
        .initializeContract farmer buyer commodity floorPrice notional ⟨0⟩ maturityTs ⟨0⟩⟩, _, rfl,
      .initializeContract List.mem_cons_self (List.mem_cons_of_mem _ List.mem_cons_self) rfl,
      ⟨rfl, rfl, rfl, rfl, rfl, rfl, rfl, rfl⟩, rfl, rfl, .inr ⟨rfl, fortune_elsewhere hbuyer ⟨0⟩⟩, ?_⟩
    change (Units.ledger.balance (fortune ⟨0⟩ buyer) ⟨0⟩ buyer).val +
      (Units.ledger.balance (fortune ⟨0⟩ buyer) ⟨0⟩ self).val = _
    rw [fortune_balance, fortune_elsewhere hbuyer, Int.add_zero]
  obtain ⟨inputs, hinputs, hlog⟩ := poised_run Units.ledger_exact Units.ledger_accepts hfarmer hbuyer hpoised ha
  refine ⟨fortune ⟨0⟩ buyer, input :: inputs, fortune_elsewhere hbuyer, fun i hm => ?_, ?_⟩
  · rcases List.mem_cons.mp hm with rfl | hm
    · rw [hparties]
      simp [hfarmer.symm, hbuyer.symm]
    · rw [hinputs i hm]
      exact List.not_mem_nil
  · rw [(machine Units.ledger self).log_commit published (exec_eq_ok.mpr ht), hlog]
    rfl

end Fortunes

/-- The events of an agreement, whatever is called and transferred in whatever order, always make an accepted book that
tells its stored state, and every accepted book is what some run of it publishes. -/
theorem event_logs_are_accepted_books (self : Address) :
    (∀ {L : Type} (tokens : Tokens L), tokens.Exact → ∀ (ledger : L) (inputs : List Input),
      (∀ token, 0 ≤ (tokens.balance ledger token self).val) → (∀ input ∈ inputs, input.LeavesOut self) →
      Book.blank.Accepts self ((machine tokens self).log published ⟨.deployed, ledger⟩ inputs) ∧
        ∃ deposit, ((machine tokens self).log published ⟨.deployed, ledger⟩ inputs).foldl Book.enter .blank =
          .ofStorage deposit (after tokens self ledger inputs).storage) ∧
    ∀ events, Book.blank.Accepts self events → ∃ (ledger : Units Address Address 128) (inputs : List Input),
      (∀ token, (Units.ledger.balance ledger token self).val = 0) ∧ (∀ input ∈ inputs, self ∉ input.parties) ∧
        (machine Units.ledger self).log published ⟨.deployed, ledger⟩ inputs = events := by
  constructor
  · intro L tokens law ledger inputs solvent hp
    obtain ⟨haccepts, haudited⟩ := audited_run law solvent hp
    exact ⟨haccepts, _, haudited.reads⟩
  · intro events ha
    cases events with
    | nil =>
      refine ⟨.issued self [] (by decide), [], fun token => ?_, fun _ hm => (nomatch hm), rfl⟩
      change (((if token = self then [] else []) : List Address).count self : Int) = 0
      rw [ite_self]
      rfl
    | cons event events =>
      cases event with
      | initialized farmer buyer commodity floorPrice notional maturityTs =>
        obtain ⟨⟨_, hfarmer, hbuyer⟩, hrest⟩ := ha
        exact written_book hfarmer hbuyer hrest
      | funded => cases ha.1.1
      | settled => cases ha.1.1
      | cancelled => rcases ha.1.1 with h | h <;> cases h

/-- Cancelled twice and funded twice, then settled for more than the second deposit. -/
def eventfulBook : List Event :=
  [.initialized ⟨1⟩ ⟨2⟩ (.other "MAIZE") (.literal 100) (.literal 2) 1000, .cancelled ⟨1⟩, .funded ⟨2⟩ (.literal 6),
    .cancelled ⟨2⟩, .funded ⟨2⟩ (.literal 3), .settled ⟨1⟩ (.literal 5) (.literal 97)]

/-- A payout that is neither what was owed nor covered by the deposit is in no book of the agreement. -/
example : ¬ Book.blank.Accepts ⟨9⟩ (eventfulBook.dropLast ++ [.settled ⟨1⟩ (.literal 2) (.literal 97)]) := by
  decide +kernel

theorem eventful_book_is_written :
    Book.blank.Accepts ⟨9⟩ ((machine Units.ledger ⟨9⟩).log published ⟨.deployed, endowment⟩ settledRun) ∧
    ∃ (ledger : Units Address Address 128) (inputs : List Input),
      (machine Units.ledger ⟨9⟩).log published ⟨.deployed, ledger⟩ inputs = eventfulBook := by
  obtain ⟨hsound, hcomplete⟩ := event_logs_are_accepted_books ⟨9⟩
  constructor
  · exact (hsound Units.ledger Units.ledger_exact endowment settledRun (fun _ => Int.natCast_nonneg _) (by decide)).1
  · obtain ⟨ledger, inputs, _, _, hlog⟩ := hcomplete eventfulBook (by decide +kernel)
    exact ⟨ledger, inputs, hlog⟩

end AgriFeed.Pricefloor
