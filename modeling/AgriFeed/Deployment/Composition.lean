import AgriFeed.Deployment.Pricing
import AgriFeed.Oracle.Refinement
import AgriFeed.Pricefloor.Refinement

/-! The deployed contracts are a price feed and a price floor that reads its latest round. Each contract is what it is
for, and their composition is too: no run of both shows anything else. -/
namespace AgriFeed.Deployment
open Foundation Pricefloor

/-- A request as it finds the feed at the moment of the call. -/
def quoting (source : Address) (feed : Oracle.PriceFeed) : Request → Request
  | .invoke env quotes call =>
    .invoke env (Function.update quotes source fun asset => (feed.rounds asset).getLast?.map (·.price)) call
  | .transfer token sender receiver amount => .transfer token sender receiver amount

/-- The price floor at one address reads the feed at another. -/
def composition (self source : Address) : Machine (Oracle.PriceFeed × PriceFloor) (Oracle.Invocation ⊕ Request)
    (Fault Oracle.Error ⊕ Fault Error) (Oracle.Reply ⊕ Reply) :=
  Oracle.PriceFeed.machine.interleave (PriceFloor.machine self) (quoting source)

section Joint
variable {L : Type} (tokens : Tokens L) (self source : Address)

/-- No token contract has refused the input. -/
def Accepted (s : Oracle.Storage × World L) (input : Oracle.Invocation ⊕ Input) : Prop :=
  (machine tokens self source).result s input ≠ .error (.inr .callee)

instance (s : Oracle.Storage × World L) (input : Oracle.Invocation ⊕ Input) :
    Decidable (Accepted tokens self source s input) :=
  inferInstanceAs (Decidable (_ ≠ _))

/-- The requests to both components that a joint run makes with all inputs accepted by the tokens. -/
def requests (ledger : L) (inputs : List (Oracle.Invocation ⊕ Input)) : List (Oracle.Invocation ⊕ Request) :=
  ((machine tokens self source).kept (Accepted tokens self source) (.deployed, ⟨.deployed, ledger⟩) inputs).map
    (Sum.map id Input.request)

/-- A token contract turns down a transfer that an input of the agreement asks it for. -/
def TurnedDown (s : Oracle.Storage × World L) : Oracle.Invocation ⊕ Input → Prop
  | .inl _ => False
  | .inr input => Pricefloor.TurnedDown tokens self s.2 (reading source s.1 input)

/-- What the two storages and the ledger stand for. -/
structure Represents (s : Oracle.Storage × World L) (t : Oracle.PriceFeed × PriceFloor) : Prop where
  feed : Oracle.Represents s.1 t.1
  floor : Pricefloor.Represents tokens s.2 t.2

/-- What the components rely on in a state that a joint run has reached. -/
def Sound (s : Oracle.Storage × World L) (input : Oracle.Invocation ⊕ Input) : Prop :=
  (∀ tx ∈ input.getLeft?, Oracle.Regular s.1 tx.env.timestamp.toNat) ∧
    ∀ token, 0 ≤ (tokens.balance s.2.ledger token self).val

end Joint

section Steps
variable {L : Type} {tokens : Tokens L} {self source : Address}

/-- What the agreement reads of the contract is what the price floor reads of the feed. -/
theorem request_reading {st : Oracle.Storage} {feed : Oracle.PriceFeed} (h : Oracle.Represents st feed)
    (input : Input) : (reading source st input).request = quoting source feed input.request := by
  cases input with
  | transfer => rfl
  | invoke tx =>
    have hquotes : quotes (Function.update tx.feed source (Oracle.lastprice st)) =
        Function.update (quotes tx.feed) source fun asset => (feed.rounds asset).getLast?.map (·.price) := by
      funext place asset
      by_cases hp : place = source
      · subst hp
        rw [quotes, Function.update_self, Function.update_self, ← h.lastprice, Option.map_map]
        rfl
      · rw [quotes, Function.update_of_ne hp, Function.update_of_ne hp, quotes]
    exact congrArg (Request.invoke tx.env · tx.call) hquotes

theorem composed_step (law : tokens.Exact) {s : Oracle.Storage × World L} {t : Oracle.PriceFeed × PriceFloor}
    (h : Represents tokens s t) {input : Oracle.Invocation ⊕ Input} (hs : Sound tokens self s input) :
    AgreesUnless (.inr .callee)
      (Machine.PairFollows Oracle.Output.reply Pricefloor.Output.reply Oracle.Represents (Pricefloor.Represents tokens))
      ((machine tokens self source).exec s input) ((composition self source).exec t (input.map id Input.request)) := by
  obtain ⟨st, w⟩ := s
  obtain ⟨feed, floor⟩ := t
  cases input with
  | inl tx =>
    exact .inr (Oracle.machine.interleave_agrees_inl _ _ _ _ _ h.floor (h.feed.step (hs.1 tx rfl)))
  | inr input =>
    have hstep : AgreesUnless .callee (Pricefloor.Follows tokens)
        ((Pricefloor.machine tokens self).exec w (reading source st input))
        ((PriceFloor.machine self).exec floor (reading source st input).request) := h.floor.step law hs.2 _
    rw [request_reading h.feed] at hstep
    exact Oracle.machine.interleave_agrees_inr _ _ _ _ _ h.feed hstep

end Steps

section Runs
variable {L : Type} {tokens : Tokens L} {self source : Address}

/-- Both contracts run as they would alone, and are sound as such. -/
theorem along_sound (law : tokens.Exact) (ledger : L) (hstart : ∀ token, 0 ≤ (tokens.balance ledger token self).val)
    {inputs : List (Oracle.Invocation ⊕ Input)} (ordered : Oracle.Timely (inputs.filterMap Sum.getLeft?)) :
    (machine tokens self source).Along (Sound tokens self) (.deployed, ⟨.deployed, ledger⟩) inputs := by
  refine ((machine tokens self source).along_iff _ _ _).mpr fun pre input post hi => ⟨?_, fun token => ?_⟩
  · rintro tx htx
    cases input with
    | inr _ => cases htx
    | inl first =>
      cases htx
      rw [hi, List.filterMap_append] at ordered
      have hregular := (Oracle.machine.along_iff _ _ _).mp (Oracle.along_regular ordered) _ _ _ rfl
      change Oracle.Regular (after tokens self source ledger pre).1 _
      rw [after_fst]
      exact hregular
  · obtain ⟨_, calls, hr⟩ := after_eq tokens self source ledger pre
    change 0 ≤ (tokens.balance (after tokens self source ledger pre).2.ledger token self).val
    rw [hr]
    exact not_overdrawn law (hstart token) calls

theorem along_attributed (s : Oracle.Storage × World L) (inputs : List (Oracle.Invocation ⊕ Input)) :
    (machine tokens self source).Along
      (fun s input => Accepted tokens self source s input ∨ TurnedDown tokens self source s input) s inputs := by
  refine ((machine tokens self source).along_iff _ _ _).mpr fun _ input _ _ => or_iff_not_imp_left.mpr fun h => ?_
  obtain ⟨input, rfl, hr⟩ := Oracle.machine.interleave_error_inr _ _ (not_not.mp h)
  exact turnedDown_of_callee hr

theorem composed_run (law : tokens.Exact) (ledger : L) (hstart : ∀ token, 0 ≤ (tokens.balance ledger token self).val)
    {inputs : List (Oracle.Invocation ⊕ Input)} (ordered : Oracle.Timely (inputs.filterMap Sum.getLeft?)) :
    ((machine tokens self source).keptResults (Accepted tokens self source) (.deployed, ⟨.deployed, ledger⟩) inputs).map
          (·.map (Sum.map Oracle.Output.reply Pricefloor.Output.reply)) =
        (composition self source).results (.blank, .blank (balances tokens ledger))
          (requests tokens self source ledger inputs) ∧
      Represents tokens (after tokens self source ledger inputs)
        ((composition self source).run (.blank, .blank (balances tokens ledger))
          (requests tokens self source ledger inputs)) := by
  have hblank : Represents tokens (.deployed, ⟨.deployed, ledger⟩) (.blank, .blank (balances tokens ledger)) :=
    ⟨Oracle.represents_blank, Pricefloor.represents_blank ledger⟩
  refine (machine tokens self source).refines_kept _ (composition self source) _ (fun s t input h _ hk => ?_)
    (fun s t input h hs hk => ?_) hblank (along_sound law ledger hstart ordered)
  · rw [Accepted, not_not, (machine tokens self source).result_eq_error] at hk
    rwa [(machine tokens self source).step_rollback hk]
  · refine ((composed_step law h hs).resolve_left fun he => hk ?_).mono fun x y hxy => ⟨hxy.1, hxy.2.1, hxy.2.2⟩
    exact (machine tokens self source).result_eq_error.mpr he

end Runs

/-- In every joint run in which the oracle's times do not go back, apart from the inputs that tokens refuse, all callers
get what the composition of feed and floor replies, with the same errors, and a token has refused nothing but transfers
that it turned down. Afterwards the terms and flags of the
agreement and all accounts stand for the state of the floor, and consumers of the oracle read what the feed shows. -/
theorem deployment_refines_composition {L : Type} (tokens : Tokens L) (law : tokens.Exact) (self source : Address)
    (ledger : L) (hstart : ∀ token, 0 ≤ (tokens.balance ledger token self).val)
    (inputs : List (Oracle.Invocation ⊕ Input)) (ordered : Oracle.Timely (inputs.filterMap Sum.getLeft?)) :
    ((machine tokens self source).keptResults (Accepted tokens self source) (.deployed, ⟨.deployed, ledger⟩) inputs).map
          (·.map (Sum.map Oracle.Output.reply Pricefloor.Output.reply)) =
        (composition self source).results (.blank, .blank (balances tokens ledger))
          (requests tokens self source ledger inputs) ∧
      (machine tokens self source).Along
        (fun s input => Accepted tokens self source s input ∨ TurnedDown tokens self source s input)
        (.deployed, ⟨.deployed, ledger⟩) inputs ∧
      ∃ feed floor, (composition self source).run (.blank, .blank (balances tokens ledger))
          (requests tokens self source ledger inputs) = (feed, floor) ∧
        (∀ query, (Oracle.answer (after tokens self source ledger inputs).1 query).reading = feed.read query) ∧
        Pricefloor.Represents tokens (after tokens self source ledger inputs).2 floor := by
  obtain ⟨hresults, hstate⟩ := composed_run law ledger hstart ordered
  refine ⟨hresults, along_attributed _ inputs, _, _, rfl, fun query => ?_, hstate.floor⟩
  have hfeed := hstate.feed
  rw [after_fst] at hfeed ⊢
  exact hfeed.reading query

/-- A stranger gives more than it has, and the agreement is settled. -/
def maizeSettled : List (Oracle.Invocation ⊕ Input) :=
  maizeRun 2 ++ [.inr (.transfer ⟨5⟩ ⟨3⟩ ⟨9⟩ (.literal 3)), .inr (settlement silent 1000)]

theorem composition_of_maize_run :
    (composition ⟨9⟩ ⟨8⟩).results (.blank, .blank (balances Units.ledger endowment))
        (requests Units.ledger ⟨9⟩ ⟨8⟩ endowment maizeSettled) =
      .replicate 4 (.ok (.inl .done)) ++ [.ok (.inr .done), .ok (.inl .done), .ok (.inr .done),
        .ok (.inl (.round ⟨97, 1020⟩)), .ok (.inr (.paid 6))] :=
  (deployment_refines_composition Units.ledger Units.ledger_exact ⟨9⟩ ⟨8⟩ endowment (fun _ => Int.natCast_nonneg _)
    maizeSettled (by decide +kernel)).1.symm.trans (by decide +kernel)

end AgriFeed.Deployment
