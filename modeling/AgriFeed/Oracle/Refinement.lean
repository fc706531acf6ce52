import AgriFeed.Foundation.Lockstep
import AgriFeed.Oracle.Duplicates
import AgriFeed.Oracle.History
import AgriFeed.Oracle.Lookup
import AgriFeed.Oracle.Nodes
import AgriFeed.Oracle.PriceFeed

/-! The contract is the price feed. Its node list is a set, its pending lists are votes and its histories are the
shown rounds, and neither its callers nor its consumers can tell the difference. -/
namespace AgriFeed.Oracle
open Foundation

def Submission.vote (resolution : Nat) (sub : Submission) : Vote :=
  ⟨sub.node, sub.price.val, sub.submittedAt.toNat / resolution⟩

/-- What the entries of the contract stand for. -/
structure Represents (st : Storage) (feed : PriceFeed) : Prop where
  setup : feed.setup = st.admin.map fun admin =>
    ⟨admin, (decimals st).toNat, (resolution st).toNat, base st⟩
  nodes : feed.nodes = (readNodes st).toFinset
  threshold : feed.threshold = (st.threshold.getD 0).toNat
  retention : feed.retention = (st.retention.getD defaultRetention).toNat
  commodities : feed.commodities = assets st
  votes : ∀ asset, feed.votes asset = (readPending st asset).map (Submission.vote (resolution st).toNat)
  visible : ∀ asset, feed.visible asset = (readHistory st asset).map PriceData.round
  latest : ∀ asset, feed.rounds asset ≠ [] → 0 < feed.shown asset

/-- What the correspondence relies on in a state that is reached at the given time. -/
structure Regular (st : Storage) (now : Nat) : Prop where
  chronological : Chronological st now
  positive : PositivePrices st
  distinct : (readNodes st).Nodup

theorem represents_blank : Represents .deployed .blank :=
  ⟨rfl, rfl, rfl, rfl, rfl, fun _ => rfl, fun _ => rfl, fun _ h => absurd rfl h⟩

/-- The callers learn the same and the states correspond again. -/
def Follows (x : Output × Storage) (y : Reply × PriceFeed) : Prop := x.1.reply = y.1 ∧ Represents x.2 y.2

section Checks
variable {A B E : Type} {R : A → B → Prop} {x : Outcome E A} {y : Outcome E B}

theorem agrees_failIf {c d : Prop} [Decidable c] [Decidable d] {e : E} (hcd : c ↔ d) (h : ¬ c → Agrees R x y) :
    Agrees R (failIf c e >>= fun _ => x) (failIf d e >>= fun _ => y) := by
  by_cases hc : c
  · rw [failIf, if_pos hc, failIf, if_pos (hcd.mp hc)]
    exact .error _
  · rw [failIf, if_neg hc, failIf, if_neg fun hd => hc (hcd.mpr hd)]
    exact h hc

end Checks

section Steps
variable {st : Storage} {feed : PriceFeed} {env : Env}

/-- Being set up is having an administrator stored. -/
theorem Represents.agrees_ready (h : Represents st feed) {A B : Type} {R : A → B → Prop} {x : Outcome Error A}
    {f : Setup → Outcome Error B}
    (hf : ∀ admin, st.admin = some admin →
      Agrees R x (f ⟨admin, (decimals st).toNat, (resolution st).toNat, base st⟩)) :
    Agrees R (requireInitialized st >>= fun _ => x) (okOr feed.setup .notInitialized >>= f) := by
  rw [h.setup]
  cases ha : st.admin with
  | none =>
    rw [requireInitialized, if_neg (by simp [ha])]
    exact .error _
  | some admin =>
    rw [requireInitialized, if_pos (by simp [ha])]
    exact hf admin ha

theorem requireAdmin_of_stored {admin stored : Address} (ha : st.admin = some stored) :
    requireAdmin st admin = failIf (stored ≠ admin) .notAdmin := by
  rw [requireAdmin, readAdmin, ha, failIf]
  change (if stored = admin then _ else _) = _
  by_cases he : stored = admin
  · rw [if_pos he, if_neg (not_not.mpr he)]
  · rw [if_neg he, if_pos he]

/-- Every administrative call makes the feed's checks before its own. -/
theorem Represents.agrees_administer (h : Represents st feed) {A : Type} {R : A → Reply × PriceFeed → Prop}
    {admin : Address} {x : Outcome Error A} {y : Outcome Error (Reply × PriceFeed)}
    (hxy : st.admin = some admin → Agrees R x y) :
    Agrees R (do requireAuth env admin; requireInitialized st; requireAdmin st admin; x)
      (feed.administer env admin y) := by
  refine .bind_left fun _ _ => h.agrees_ready fun stored ha => ?_
  rw [requireAdmin_of_stored ha]
  refine agrees_failIf Iff.rfl fun hs => hxy ?_
  rw [ha, not_not.mp hs]

theorem Represents.addNode (h : Represents st feed) (admin node : Address) :
    Agrees (fun r y => Follows r.done y) (addNode env st admin node)
      (feed.administer env admin (return (.done, { feed with nodes := insert node feed.nodes }))) := by
  refine h.agrees_administer fun _ => ?_
  by_cases hn : node ∈ readNodes st
  · rw [if_pos hn]
    refine .ok ⟨rfl, { h with nodes := ?_ }⟩
    change insert node feed.nodes = (readNodes st).toFinset
    rw [h.nodes, Finset.insert_eq_self, List.mem_toFinset]
    exact hn
  · rw [if_neg hn]
    refine .ok ⟨rfl, { h with nodes := ?_ }⟩
    change insert node feed.nodes = (readNodes st ++ [node]).toFinset
    rw [h.nodes]
    ext other
    simp

theorem Represents.removeNode (h : Represents st feed) (hs : Regular st env.timestamp.toNat) (admin node : Address) :
    Agrees (fun r y => Follows r.done y) (removeNode env st admin node)
      (feed.administer env admin (return (.done, { feed with nodes := feed.nodes.erase node }))) := by
  refine h.agrees_administer fun _ => ?_
  dsimp only
  split
  · rename_i hi
    refine .ok ⟨rfl, { h with nodes := ?_ }⟩
    change feed.nodes.erase node = (readNodes st).toFinset
    rw [h.nodes, Finset.erase_eq_self, List.mem_toFinset]
    exact List.idxOf?_eq_none_iff.mp hi
  · rename_i index hi
    refine .ok ⟨rfl, { h with nodes := ?_ }⟩
    change feed.nodes.erase node = ((readNodes st).eraseIdx index).toFinset
    have herase : (readNodes st).eraseIdx index = (readNodes st).erase node := by
      rw [List.erase_eq_eraseIdx, hi]
    rw [h.nodes, herase]
    ext other
    rw [Finset.mem_erase, List.mem_toFinset, List.mem_toFinset, hs.distinct.mem_erase_iff]

theorem Represents.setThreshold (h : Represents st feed) (hs : Regular st env.timestamp.toNat) (admin : Address)
    (threshold : UInt32) :
    Agrees (fun r y => Follows r.done y) (setThreshold env st admin threshold)
      (feed.administer env admin do
        failIf (threshold.toNat = 0 ∨ feed.nodes.card < threshold.toNat) .invalidThreshold
        return (.done, { feed with threshold := threshold.toNat })) := by
  refine h.agrees_administer fun _ => agrees_failIf ?_ fun _ => .ok ⟨rfl, { h with threshold := rfl }⟩
  rw [h.nodes, List.toFinset_card_of_nodup hs.distinct]
  exact or_congr_left UInt32.toNat_inj.symm

theorem Represents.setRetention (h : Represents st feed) (admin : Address) (retention : UInt32) :
    Agrees (fun r y => Follows r.done y) (setRetention env st admin retention)
      (feed.administer env admin do
        failIf (retention.toNat = 0) .invalidThreshold
        return (.done, { feed with retention := retention.toNat })) :=
  h.agrees_administer fun _ => agrees_failIf UInt32.toNat_inj.symm fun _ => .ok ⟨rfl, { h with retention := rfl }⟩

theorem Represents.addCommodity (h : Represents st feed) (admin : Address) (asset : Asset) :
    Agrees (fun r y => Follows r.done y) (addCommodity env st admin asset)
      (feed.administer env admin do
        failIf (asset ∈ feed.commodities) .commodityAlreadyExists
        return (.done, { feed with commodities := feed.commodities ++ [asset] })) := by
  refine h.agrees_administer fun _ => agrees_failIf ?_ fun _ => .ok ⟨rfl, { h with commodities := ?_ }⟩
  · rw [h.commodities]
    exact Iff.rfl
  · rw [h.commodities]
    rfl

/-- Of a contract that was never initialized everything is as in the blank feed. -/
theorem Represents.initializeContract (h : Represents st feed) (hs : Regular st env.timestamp.toNat) (admin : Address)
    (decimals resolution : UInt32) (baseAsset : Asset) :
    Agrees (fun r y => Follows r.done y) (initializeContract env st admin decimals resolution baseAsset) (do
      requireAuth env admin
      failIf feed.setup.isSome .alreadyInitialized
      failIf (resolution.toNat = 0) .invalidThreshold
      return (.done, { feed with setup := some ⟨admin, decimals.toNat, resolution.toNat, baseAsset⟩ })) := by
  refine .bind_left fun _ _ => agrees_failIf ?_ fun hfresh => agrees_failIf UInt32.toNat_inj.symm fun _ => ?_
  · rw [h.setup, Option.isSome_map]
  · obtain rfl : st = .deployed := hs.chronological.configured.resolve_right fun hc => hfresh hc.admin
    exact .ok ⟨rfl, { h with setup := rfl, votes := h.votes }⟩

theorem Represents.hasSubmitted_iff (h : Represents st feed) (hs : Regular st env.timestamp.toNat)
    (hc : Configured st) (node : Address) (asset : Asset) :
    hasSubmitted (readPending st asset) node (roundToWindow st env.timestamp) = true ↔
      (node, env.timestamp.toNat / (resolution st).toNat) ∈
        (feed.votes asset).map fun vote => (vote.node, vote.window) := by
  rw [h.votes, Multiset.map_coe, Multiset.mem_coe, List.map_map, List.mem_map]
  constructor
  · intro hf
    obtain ⟨sub, hm, hn, hw⟩ := window_of_hasSubmitted hc (hs.chronological.submitted asset) hf
    exact ⟨sub, hm, Prod.ext hn hw⟩
  · rintro ⟨sub, hm, he⟩
    exact hasSubmitted_of_window hc hm (congrArg Prod.fst he) (congrArg Prod.snd he)

/-- One more submission is one more vote. -/
theorem Represents.voted (h : Represents st feed) (asset : Asset) (sub : Submission) :
    Represents (st.setPending asset (some (readPending st asset ++ [sub])))
      (feed.vote asset (sub.vote (resolution st).toNat)) := by
  refine { h with votes := fun a => ?_ }
  change Function.update feed.votes asset _ a =
    ((readPending (st.setPending asset _) a).map (Submission.vote (resolution st).toNat) : List Vote)
  rw [readPending_setPending]
  by_cases ha : a = asset
  · subst ha
    rw [Function.update_self, if_pos rfl, h.votes, Option.getD_some, List.map_append, ← Multiset.coe_add,
      Multiset.add_comm]
    rfl
  · rw [Function.update_of_ne ha, if_neg ha, h.votes]

theorem Represents.submitPrice (h : Represents st feed) (hs : Regular st env.timestamp.toNat) (node : Address)
    (asset : Asset) (price : I128) (sourceTs : UInt64) :
    Agrees (fun r y => Follows r.done y) (submitPrice env st node asset price sourceTs)
      (feed.submit env node asset price.val) := by
  refine .bind_left fun _ _ => h.agrees_ready fun admin ha => ?_
  have hc : Configured st := hs.chronological.configured.resolve_left fun hd => by
    rw [hd] at ha
    cases ha
  refine agrees_failIf (by rw [h.nodes, List.mem_toFinset]) fun _ => ?_
  refine agrees_failIf (by rw [h.commodities]; rfl) fun _ => agrees_failIf Iff.rfl fun _ => ?_
  exact agrees_failIf (h.hasSubmitted_iff hs hc node asset) fun _ => .ok ⟨rfl, h.voted asset _⟩

/-- The median of the pending list is the price the votes agree on. -/
theorem median_agrees {pending : List Submission} {votes : Multiset Vote} {resolution : Nat} (hne : pending ≠ [])
    (hpos : ∀ sub ∈ pending, 0 < sub.price.val) (hv : votes = pending.map (Submission.vote resolution)) :
    Agrees (fun m price => m.val = price) (median pending)
      (okOr (agreedPrice (votes.map (·.price))) Error.invalidPrice : Outcome Error Int) := by
  have hprices : votes.map (·.price) = (priceValues pending : Multiset Int) := by
    rw [hv, Multiset.map_coe, List.map_map]
    rfl
  have hperm : ((votes.map (·.price)).sort).Perm (priceValues pending) := by
    rw [← Multiset.coe_eq_coe, Multiset.sort_eq, hprices]
  have hlength := hperm.length_eq
  have hranked := ranked_congr hperm
  have hfit := middlesFit_iff hne hpos
  rw [length_priceValues] at hlength
  simp only [agreedPrice, truncatedMedian, lowerMiddle, upperMiddle, hranked, hlength]
  rw [lowerMiddle, upperMiddle, length_priceValues] at hfit
  by_cases hm : MiddlesFit pending
  · obtain ⟨m, hmed⟩ := exists_median hne hm
    rw [hmed, if_pos (hfit.mp hm)]
    refine .ok ?_
    have hval := (median_eq_ok.mp hmed).2.2
    rwa [truncatedMedian, lowerMiddle, upperMiddle, length_priceValues] at hval
  · rw [median_overflow hne hm, if_neg fun h => hm (hfit.mpr h)]
    exact .error _

/-- A finalized round ends the voting and is shown with as many earlier ones as the pruned history has. -/
theorem Represents.conclude (h : Represents st feed) (hc : Configured st) (asset : Asset) (record : PriceData) :
    Represents ((st.setHistory asset (some (prune (st.retention.getD defaultRetention).toNat
        (readHistory st asset ++ [record])))).setPending asset none) (feed.conclude asset record.round) := by
  refine { h with votes := fun a => ?_, visible := fun a => ?_, latest := fun a => ?_ }
  · change Function.update feed.votes asset 0 a = ((readPending (Storage.setPending _ asset none) a).map _ : List Vote)
    rw [readPending_setPending]
    by_cases ha : a = asset
    · subst ha
      rw [Function.update_self, if_pos rfl]
      rfl
    · rw [Function.update_of_ne ha, if_neg ha, h.votes]
      rfl
  · rw [PriceFeed.visible_conclude, readHistory_setPending, readHistory_setHistory]
    by_cases ha : a = asset
    · rw [if_pos ha, if_pos ha, h.visible, h.retention, Option.getD_some, prune_eq_drop, List.map_drop, List.rtake,
        List.map_append, List.length_append, List.length_append, List.length_map]
      rfl
    · rw [if_neg ha, if_neg ha, h.visible]
  · by_cases ha : a = asset
    · subst ha
      have hpos := hc.retention_pos
      simp only [PriceFeed.conclude, Function.update_self, h.retention]
      omega
    · simp only [PriceFeed.conclude, Function.update_of_ne ha]
      exact h.latest a

theorem Represents.finalizePrice (h : Represents st feed) (hs : Regular st env.timestamp.toNat) (asset : Asset) :
    Agrees (fun r y => Follows r.priced y) (finalizePrice env st asset) (feed.finalize env asset) := by
  refine h.agrees_ready fun admin ha => ?_
  have hc : Configured st := hs.chronological.configured.resolve_left fun hd => by
    rw [hd] at ha
    cases ha
  have hcard : (feed.votes asset).card = (readPending st asset).length := by
    rw [h.votes, Multiset.coe_card, List.length_map]
  refine agrees_failIf ?_ fun hne => agrees_failIf ?_ fun _ => ?_
  · rw [← Multiset.card_eq_zero, hcard, List.isEmpty_iff, List.length_eq_zero_iff]
  · rw [hcard, h.threshold]
    exact or_congr_left UInt32.toNat_inj.symm
  · have hpending : readPending st asset ≠ [] := by rwa [List.isEmpty_iff] at hne
    refine .bind (median_agrees hpending (hs.positive.pending asset) (h.votes asset)) fun m price hm => ?_
    have hround : (⟨m, roundToWindow st env.timestamp⟩ : PriceData).round =
        ⟨price, windowStart (resolution st).toNat env.timestamp.toNat⟩ := by
      rw [PriceData.round, hm, hc.roundToWindow_toNat]
    refine .ok ⟨?_, ?_⟩
    · exact congrArg Reply.round hround
    · rw [← hround]
      exact h.conclude hc asset _

/-- Every call is the call of the feed. -/
theorem Represents.step (h : Represents st feed) {tx : Invocation} (hs : Regular st tx.env.timestamp.toNat) :
    Agrees (fun x y => x.1.reply = y.1 ∧ Represents x.2 y.2) (machine.exec st tx) (PriceFeed.machine.exec feed tx) := by
  obtain ⟨env, call⟩ := tx
  have hdone {x : Outcome Error (Receipt Unit)} {y : Outcome Error (Reply × PriceFeed)}
      (hxy : Agrees (fun r y => Follows r.done y) x y) : Agrees Follows (x.map Receipt.done) y :=
    .map_left (Q := Follows) (f := Receipt.done) (fun _ _ hf => hf) hxy
  cases call with
  | initializeContract admin decimals resolution baseAsset =>
    exact hdone (h.initializeContract hs admin decimals resolution baseAsset)
  | addNode admin node => exact hdone (h.addNode admin node)
  | removeNode admin node => exact hdone (h.removeNode hs admin node)
  | setThreshold admin threshold => exact hdone (h.setThreshold hs admin threshold)
  | setRetention admin retention => exact hdone (h.setRetention admin retention)
  | addCommodity admin asset => exact hdone (h.addCommodity admin asset)
  | submitPrice node asset price sourceTs => exact hdone (h.submitPrice hs node asset price sourceTs)
  | finalizePrice asset =>
    exact .map_left (Q := Follows) (f := Receipt.priced) (fun _ _ hf => hf) (h.finalizePrice hs asset)
  | extendInstanceTtl asset => exact hdone (h.agrees_ready fun _ _ => .ok ⟨rfl, h⟩)

end Steps

section Runs
variable {txs : List Invocation}

theorem along_regular (ordered : Timely txs) :
    machine.Along (fun st tx => Regular st tx.env.timestamp.toNat) .deployed txs := by
  have hchronological := (machine.along_iff _ _ _).mp (along_chronological ordered)
  refine (machine.along_iff _ _ _).mpr fun pre tx post hs => ?_
  exact ⟨hchronological pre tx post hs, positivePrices pre, nodes_nodup pre⟩

/-- A value of the configuration is read alike, before and after it is set. -/
theorem Represents.setup_getD {st : Storage} {feed : PriceFeed} (h : Represents st feed)
    (hconf : st = .deployed ∨ Configured st) {B : Type} (f : Setup → B) {value absent : B}
    (stored : ∀ admin, f ⟨admin, (decimals st).toNat, (resolution st).toNat, base st⟩ = value)
    (unset : st = .deployed → absent = value) : (feed.setup.map f).getD absent = value := by
  rw [h.setup]
  rcases hconf with hd | hc
  · have hadmin : st.admin = none := by rw [hd]; rfl
    rw [hadmin]
    exact unset hd
  · obtain ⟨admin, ha⟩ := Option.isSome_iff_exists.mp hc.admin
    rw [ha]
    exact stored admin

/-- The last price is that of the latest round. -/
theorem Represents.lastprice {st : Storage} {feed : PriceFeed} (h : Represents st feed) (asset : Asset) :
    (Oracle.lastprice st asset).map PriceData.round = (feed.rounds asset).getLast? := by
  rw [Oracle.lastprice, ← List.getLast?_map, ← h.visible, PriceFeed.visible]
  by_cases hr : feed.rounds asset = []
  · rw [hr, List.rtake_nil]
  · exact getLast?_rtake (h.latest asset hr)

theorem Represents.reading {feed : PriceFeed} (h : Represents (after txs) feed) (query : Query) :
    (answer (after txs) query).reading = feed.read query := by
  have hconf := deployed_or_configured txs
  have hresolution : (feed.setup.map (·.resolution)).getD 0 = (resolution (after txs)).toNat :=
    h.setup_getD hconf _ (fun _ => rfl) fun hd => by rw [hd]; rfl
  cases query with
  | base => exact congrArg Reading.asset (h.setup_getD hconf _ (fun _ => rfl) fun hd => by rw [hd]; rfl).symm
  | assets => exact congrArg Reading.assets h.commodities.symm
  | decimals => exact congrArg Reading.number (h.setup_getD hconf _ (fun _ => rfl) fun hd => by rw [hd]; rfl).symm
  | resolution => exact congrArg Reading.number hresolution.symm
  | price asset timestamp =>
    refine congrArg Reading.round ?_
    rw [price_eq_find, h.visible, hresolution, List.find?_map]
    rfl
  | prices asset records =>
    refine congrArg Reading.rounds ?_
    have hempty : (records.toNat = 0 ∨ feed.visible asset = []) ↔ (records = 0 ∨ readHistory (after txs) asset = []) :=
      or_congr (UInt32.toNat_inj (b := 0)) (by rw [h.visible, List.map_eq_nil_iff])
    rw [prices_eq_rtake, if_congr hempty rfl rfl, h.visible]
    split
    · rfl
    · rw [Option.map_some, List.rtake, List.rtake, List.length_map, List.map_drop]
  | lastprice asset => exact congrArg Reading.round (h.lastprice asset)

/-- With ordered times every caller gets the reply of the feed, with the same errors, and every consumer reads from
the contract what the feed shows. -/
theorem oracle_refines_price_feed (txs : List Invocation) (ordered : Timely txs) :
    (machine.results .deployed txs).map (·.map Output.reply) = PriceFeed.machine.results .blank txs ∧
      ∀ query, (answer (after txs) query).reading = (PriceFeed.after txs).read query := by
  obtain ⟨hresults, hstate⟩ := machine.refines_run Output.reply PriceFeed.machine (fun _ _ _ h hs => h.step hs)
    represents_blank (along_regular ordered)
  exact ⟨hresults, hstate.reading⟩

end Runs

/-- A duplicate and an outvoted price, and then a round with too few votes. -/
def threeNodes : List Invocation :=
  opening ⟨0⟩ 60 [⟨1⟩, ⟨2⟩, ⟨3⟩] 2 (.other "MAIZE") ++
    [submission ⟨1⟩ (.other "MAIZE") (.literal 95) 1030, submission ⟨1⟩ (.other "MAIZE") (.literal 96) 1040,
      submission ⟨2⟩ (.other "MAIZE") (.literal 1000) 1041, submission ⟨3⟩ (.other "MAIZE") (.literal 101) 1042,
      finalization (.other "MAIZE") 1050, submission ⟨3⟩ (.other "MAIZE") (.literal 99) 1085,
      finalization (.other "MAIZE") 1086]

theorem three_nodes_refine :
    (PriceFeed.after threeNodes).read (.lastprice (.other "MAIZE")) = .round (some ⟨101, 1020⟩) :=
  ((oracle_refines_price_feed threeNodes (by decide +kernel)).2 _).symm.trans (by decide +kernel)

end AgriFeed.Oracle
