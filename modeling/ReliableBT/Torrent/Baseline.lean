import ReliableBT.Torrent.Accounting
import ReliableBT.Torrent.Coherence

/-!
# The rule for the baseline provider (`requesting.go`)

`getDesiredRequestState` asks the baseline provider only for pieces whose availability is at most
one, and reads the availability from the piece request order. If the accounts are right
(`Accounting.lean`) and the order is coherent (`Coherence.lean`) that is the number of open peers
that have the piece, the baseline provider among them.

* `availability_eq_providers`: what the availability of a piece counts.
* `mem_desired_iff`: a chunk is desired iff `mayRequest` says so of the one item it belongs to.
* `baseline_asked_last`: the baseline provider is asked for a chunk iff nobody else has the piece,
  in every run that keeps the accounts and the entries.
* `baseline_asked_wrongly`: runs in which a connection with all pieces joins or leaves.
-/

open List Option

namespace ReliableBT

open Torrent

variable {t : Torrent} {info : Info} {i p r : Nat}

/-! ## Availability -/

/-- The open peer has the piece. -/
def Torrent.provides (t : Torrent) (i q : Nat) : Bool := !t.avail.closed q && t.peerHasPiece q i

variable {q : Nat} {input : StrategyInput} {item : OrderItem}

theorem Accounts.peerHasPiece_eq (h : Accounts NoneLate t) (hinfo : t.haveInfo = true)
    (hi : i < t.numPieces) (hq : q ∈ t.iterPeers) (hopen : t.avail.closed q = false)
    (hall : q ∉ t.avail.connsWithAllPieces) :
    t.peerHasPiece q i = decide (i ∈ t.avail.peerPieces q) := by
  have hfull : (t.avail.peerPieces q).card = t.numPieces → i ∈ t.avail.peerPieces q := fun hcard =>
    (Bitmap.card_eq_iff (h.range hinfo q hq id)).mp hcard i hi
  unfold peerHasPiece peerHasAllPieces
  cases hkind : t.kind q with
  | conn fast transmission =>
    have hconn : q ∈ t.avail.conns := by
      refine (mem_append.mp hq).resolve_right fun hweb => ?_
      have := h.web q hweb
      simp [isConn, hkind] at this
    have hsent : t.avail.peerSentHaveAll q = false := by
      by_contra hne
      exact hall (h.haveAll q hconn hopen (by simpa using hne)).1
    simp only [hsent, hinfo, Bool.false_eq_true, if_false, Bool.not_true, Prod.mk.injEq,
      decide_eq_true_eq, and_true]
    split_ifs with hcard
    · exact (decide_eq_true (hfull hcard)).symm
    · rfl
  | webseed conforming =>
    simp only [hinfo, Bool.false_eq_true, if_false, Bool.not_true, Prod.mk.injEq,
      decide_eq_true_eq, and_true]
    split_ifs with hcard
    · exact (decide_eq_true (hfull hcard)).symm
    · rfl

theorem Accounts.provides_eq (h : Accounts NoneLate t) (hinfo : t.haveInfo = true)
    (hi : i < t.numPieces) (hq : q ∈ t.iterPeers) :
    t.provides i q = (decide (q ∈ t.avail.connsWithAllPieces) || t.avail.shares i q) := by
  unfold provides Avail.shares
  by_cases hall : q ∈ t.avail.connsWithAllPieces
  · obtain ⟨hconn, hopen, hsent⟩ := h.all q hall
    have hhas : t.peerHasPiece q i = true := by
      have hkind := h.conn q hconn
      rw [isConn] at hkind
      cases hk : t.kind q with
      | conn fast transmission => simp [peerHasPiece, peerHasAllPieces, hk, hsent]
      | webseed conforming =>
        rw [hk] at hkind
        cases hkind
    simp [hall, hopen, hhas]
  · cases hopen : t.avail.closed q with
    | true => simp [hall]
    | false =>
      rw [h.peerHasPiece_eq hinfo hi hq hopen hall]
      simp [hall]

/-- **Availability** of a piece is the number of open peers that have it. -/
theorem Accounts.availability_eq_providers (h : Accounts NoneLate t) (hinfo : t.haveInfo = true)
    (hi : i < t.numPieces) : t.availability i = t.iterPeers.countP (t.provides i) := by
  have hsplit : t.iterPeers.countP (t.provides i) =
      t.iterPeers.countP (fun q => decide (q ∈ t.avail.connsWithAllPieces)) +
        t.iterPeers.countP (t.avail.shares i) := by
    rw [countP_congr fun q hq => by rw [h.provides_eq hinfo hi hq]]
    induction t.iterPeers with
    | nil => rfl
    | cons q l ih =>
      rw [countP_cons, countP_cons, countP_cons, ih]
      by_cases hall : q ∈ t.avail.connsWithAllPieces
      · simp [Avail.shares, hall]
        omega
      · simp [hall]
        omega
  -- the connections with all pieces are among the peers, and each is there once
  have hperm : (t.iterPeers.filter fun q => decide (q ∈ t.avail.connsWithAllPieces)).Perm
      t.avail.connsWithAllPieces := by
    refine (perm_ext_iff_of_nodup (h.nodup.filter _) h.allNodup).mpr fun q => ?_
    rw [mem_filter, decide_eq_true_eq]
    exact and_iff_right_of_imp fun hq => mem_append_left _ (h.all q hq).1
  unfold availability
  rw [hsplit, countP_eq_length_filter, hperm.length_eq, h.counted i hi]
  rfl

theorem one_lt_countP_iff {l : List Nat} {f : Nat → Bool} (hnodup : l.Nodup) (hp : p ∈ l)
    (hf : f p = true) : 1 < l.countP f ↔ ∃ q ∈ l, q ≠ p ∧ f q = true := by
  rw [(perm_cons_erase hp).countP_eq, countP_cons, if_pos hf, Nat.lt_add_left_iff_pos,
    countP_pos_iff]
  refine exists_congr fun q => ?_
  rw [hnodup.mem_erase_iff]
  exact ⟨fun ⟨⟨hne, hq⟩, hfq⟩ => ⟨hq, hne, hfq⟩, fun ⟨hq, hne, hfq⟩ => ⟨⟨hne, hq⟩, hfq⟩⟩

/-! ## What is desired -/

theorem mem_of_mem_foldl_insert {items : List OrderItem} {tree : RequestStrategy.Btree}
    (h : item ∈ items.foldl OrderedSet.replaceOrInsert tree) : item ∈ items ∨ item ∈ tree := by
  induction items generalizing tree with
  | nil => exact .inr h
  | cons item' items ih =>
    rcases ih h with h | h
    · exact .inl (mem_cons_of_mem _ h)
    · rcases OrderedSet.mem_replaceOrInsert.mp h with rfl | h
      · exact .inl mem_cons_self
      · exact .inr h.1

theorem emitted_entry (hitem : item ∈ t.getRequestablePieces input)
    (hown : item.infoHash = t.cfg.infoHash) :
    item.index < t.numPieces ∧
      (t.order item.index).map PieceRequestOrderState.toState = some item.state ∧
      t.ignorePiece item.index = false := by
  obtain ⟨hmem, hkept⟩ := RequestStrategy.Input.called_mem hitem
  have hmem := (mem_of_mem_foldl_insert hmem).resolve_right not_mem_nil
  rcases mem_append.mp hmem with hmem | hmem
  · obtain ⟨i, hi, hentry⟩ := mem_filterMap.mp hmem
    obtain ⟨state, hstate, rfl⟩ := map_eq_some_iff.mp hentry
    refine ⟨mem_range.mp hi, congrArg _ hstate, ?_⟩
    simpa [getRequestStrategyInput, RequestStrategy.Item.index] using hkept
  · exact absurd hown (by simpa using (mem_filter.mp hmem).2)

theorem undirtied_range (hinfo : t.info = some info) (hreg : info.Regular t.cfg.chunkSize)
    (hi : i < info.numPieces) (hr : r ∈ t.undirtiedRequestIndexes i) :
    i * info.chunksPerRegularPiece t.cfg.chunkSize ≤ r ∧
      r < i * info.chunksPerRegularPiece t.cfg.chunkSize +
        (info.pieceLen i + t.cfg.chunkSize - 1) / t.cfg.chunkSize := by
  have hfit := hreg.1
  have hlen : info.pieceLen i ≤ info.pieceLength := Info.pieceLen_le_pieceLength i
  unfold undirtiedRequestIndexes at hr
  simp only [pieceRequestIndexOffset, pieceNumChunks, hinfo, map_some, getD_some] at hr
  rw [mem_filter, mem_range'_1, hreg.offset_eq (Nat.le_of_lt hi), Info.pieceNumChunks,
    u32_of_lt (n := info.pieceLen i + t.cfg.chunkSize - 1) (by omega)] at hr
  have hstop := u32_le (i * info.chunksPerRegularPiece t.cfg.chunkSize +
    (info.pieceLen i + t.cfg.chunkSize - 1) / t.cfg.chunkSize)
  omega

theorem undirtied_piece (hinfo : t.info = some info) (hreg : info.Regular t.cfg.chunkSize)
    (hi : i < info.numPieces) (hr : r ∈ t.undirtiedRequestIndexes i) :
    r / info.chunksPerRegularPiece t.cfg.chunkSize = i := by
  obtain ⟨hle, hlt⟩ := undirtied_range hinfo hreg hi hr
  have hlen : info.pieceLen i ≤ info.pieceLength := Info.pieceLen_le_pieceLength i
  have hchunks : (info.pieceLen i + t.cfg.chunkSize - 1) / t.cfg.chunkSize ≤
      info.chunksPerRegularPiece t.cfg.chunkSize := by
    rw [hreg.chunksPerRegularPiece_eq t.cfg.chunkSize_pos]
    exact Nat.div_le_div_right (by omega)
  refine Nat.div_eq_of_lt_le hle ?_
  rw [Nat.add_mul, Nat.one_mul]
  omega

/-- The chunk may be requested from the peer as far as dirty chunks, cancels and choking go. -/
def Torrent.Requestable (t : Torrent) (p : Nat) (item : OrderItem) (r : Nat) : Prop :=
  r ∈ t.undirtiedRequestIndexes item.index ∧ r ∉ t.reqs.cancelled p ∧
    (item.index ∈ t.ctl.peerAllowedFast p ∨ t.ctl.peerChoking p = false ∨ r ∈ t.reqs.requests p)

instance (t : Torrent) (p : Nat) (item : OrderItem) (r : Nat) :
    Decidable (t.Requestable p item r) := inferInstanceAs (Decidable (_ ∧ _ ∧ _))

theorem mayRequest_iff (hr : t.Requestable p item r) (hbase : t.isBaselineProvider p = true) :
    t.mayRequest p item r = true ↔ ¬ 1 < item.state.availability := by
  obtain ⟨-, hcancelled, hchoke⟩ := hr
  have hchoke' : (decide (item.index ∈ t.ctl.peerAllowedFast p) ||
      !(t.ctl.peerChoking p && decide (r ∉ t.reqs.requests p))) = true := by
    rcases hchoke with h | h | h
    · simp [h]
    · simp [h]
    · simp [h]
  unfold mayRequest
  rw [hchoke', hbase]
  simp [hcancelled]

theorem mem_desired_iff (hopen : t.closed = false) (hinfo : t.info = some info)
    (hreg : info.Regular t.cfg.chunkSize) {desired : DesiredRequestState}
    (hdesired : t.getDesiredRequestState p input = .ok desired)
    (hitem : item ∈ t.getRequestablePieces input) (hown : item.infoHash = t.cfg.infoHash)
    (hhas : t.peerHasPiece p item.index = true) (hr : r ∈ t.undirtiedRequestIndexes item.index) :
    r ∈ desired.requests ↔ t.mayRequest p item r = true := by
  have hnum : t.numPieces = info.numPieces := by simp [numPieces, hinfo]
  obtain ⟨hlt, hentry⟩ := emitted_entry hitem hown
  have hmem : item ∈ t.requestablePieces p input :=
    mem_filter.mpr ⟨hitem, by simp [hown, hhas]⟩
  unfold getDesiredRequestState at hdesired
  split_ifs at hdesired with hno hclosed
  · simp [haveInfo, hinfo] at hno
  · rw [hopen] at hclosed
    cases hclosed
  · cases hdesired
    dsimp only
    rw [mem_flatMap]
    constructor
    · rintro ⟨item', hitem', hr'⟩
      obtain ⟨hr', hmay⟩ := mem_filter.mp hr'
      obtain ⟨hemit', hown'⟩ := mem_filter.mp hitem'
      rw [Bool.and_eq_true, decide_eq_true_eq] at hown'
      obtain ⟨hlt', hentry'⟩ := emitted_entry hemit' hown'.1
      -- both items have the chunk, so they are for one piece, and have its entry
      have hindex : item'.index = item.index :=
        (undirtied_piece hinfo hreg (hnum ▸ hlt') hr').symm.trans
          (undirtied_piece hinfo hreg (hnum ▸ hlt) hr)
      have hstate : item'.state = item.state := by
        rw [hindex, hentry.1] at hentry'
        exact (some.inj hentry'.1).symm
      unfold mayRequest at hmay ⊢
      rw [hindex, hstate] at hmay
      exact hmay
    · exact fun hmay => ⟨item, hmem, mem_filter.mpr ⟨hr, hmay⟩⟩

/-! ## The rule -/

/-- The baseline provider is asked for a chunk that it could be asked for iff no other open peer has
the piece. -/
def BaselineRule (t : Torrent) : Prop :=
  t.closed = false → ∀ p ∈ t.iterPeers, t.avail.closed p = false →
    t.isBaselineProvider p = true → ∀ input desired,
    t.getDesiredRequestState p input = .ok desired → ∀ item ∈ t.getRequestablePieces input,
    item.infoHash = t.cfg.infoHash → t.peerHasPiece p item.index = true →
    ∀ r, t.Requestable p item r →
      (r ∈ desired.requests ↔
        ∀ q ∈ t.iterPeers, q ≠ p → t.avail.closed q = false → t.peerHasPiece q item.index = false)

/-- The step keeps both the accounts and the entries. -/
def KeepsAvailability (t : Torrent) (e : Event) : Prop := KeepsAccounts t e ∧ KeepsEntries t e

instance (t : Torrent) (e : Event) : Decidable (KeepsAvailability t e) :=
  inferInstanceAs (Decidable (_ ∧ _))

theorem baselineRule_of_coherent (hacc : Accounts NoneLate t) (hcoh : Coherent ∅ t)
    (hmoves : t.avail.moves = 0) : BaselineRule t := by
  intro hopen p hp hpopen hbase input desired hdesired item hitem hown hhas r hr
  obtain ⟨hlt, hentry⟩ := emitted_entry hitem hown
  cases hinfo : t.info with
  | none => simp [numPieces, hinfo] at hlt
  | some info =>
    have hreg := ((hcoh hopen).2 info hinfo).1
    have hhave : t.haveInfo = true := by simp [haveInfo, hinfo]
    have hstorage : t.storageOpen = true := by
      unfold getDesiredRequestState at hdesired
      split_ifs at hdesired with hno hclosed hstorage
      · simp [hhave] at hno
      · rw [hopen] at hclosed
        cases hclosed
      · simp only [Bool.not_eq_true', Bool.not_eq_false] at hstorage
        rw [storageOpen, hhave, hstorage]
        rfl
    -- the recorded availability is the number of open peers with the piece
    have hright := (coherent_entries hcoh hopen hstorage hlt).entry hmoves
    have havail : item.state.availability = t.iterPeers.countP (t.provides item.index) := by
      rw [hright] at hentry
      rw [← some.inj hentry.1]
      exact congrArg Int.ofNat (hacc.availability_eq_providers hhave hlt)
    have hself : t.provides item.index p = true := by simp [provides, hpopen, hhas]
    have hnodup : t.iterPeers.Nodup := hacc.nodup
    rw [mem_desired_iff hopen hinfo hreg hdesired hitem hown hhas hr.1, mayRequest_iff hr hbase,
      havail, Nat.one_lt_cast, one_lt_countP_iff hnodup hp hself]
    constructor
    · intro hnone q hq hne hqopen
      by_contra hqhas
      exact hnone ⟨q, hq, hne, by simp [provides, hqopen, hqhas]⟩
    · rintro hnone ⟨q, hq, hne, hqprovides⟩
      simp only [provides, Bool.and_eq_true, Bool.not_eq_true'] at hqprovides
      rw [hnone q hq hne hqprovides.1] at hqprovides
      cases hqprovides.2

/-- **The baseline provider is the last to be asked**, in every run that keeps the accounts and the
entries: it is asked for a chunk iff no other open peer has the piece. -/
theorem baseline_asked_last (cfg : Config) (storage : Storage) (events : List Event)
    (hC : Meets step KeepsAvailability (init cfg storage) events) :
    Gives BaselineRule (run step (init cfg storage) events) := by
  have hacc := accounts_aboutPeers.keeps.run (accounts_init cfg storage) (hC.imp fun _ _ h => h.1)
  have hcoh := coherent_run cfg storage events (hC.imp fun _ _ h => h.2)
  exact (hcoh.and hacc).imp fun t ⟨⟨hcoherent, hmoves⟩, hright, _⟩ =>
    baselineRule_of_coherent hright hcoherent hmoves

/-- The baseline provider joins and has the only piece, which is wanted. -/
def baselineJoins : List Event :=
  [.addBaselineProvider 1 80, .addConn 1 true false (some (1, 80)),
    pieceMessage .have_ 0, pieceMessage .unchoke 0, .downloadPieces 0 1]

/-- Connection 1 is the baseline provider and open, and chunk 0 may be requested from it. -/
def Torrent.baselineReady (t : Torrent) : Prop :=
  t.closed = false ∧ 1 ∈ t.iterPeers ∧ t.avail.closed 1 = false ∧
    t.isBaselineProvider 1 = true ∧ t.peerHasPiece 1 0 = true ∧
    ∃ item ∈ t.getRequestablePieces {}, item.infoHash = t.cfg.infoHash ∧ item.index = 0 ∧
      t.Requestable 1 item 0

instance (t : Torrent) : Decidable t.baselineReady :=
  inferInstanceAs (Decidable (_ ∧ _ ∧ _ ∧ _ ∧ _ ∧ _))

/-- **The rule fails** when connections with all pieces come and go with the info known. One joins,
and the baseline provider is still asked; one leaves, and nobody is asked. -/
theorem baseline_asked_wrongly :
    Reaches (fun t => t.baselineReady ∧ 2 ∈ t.iterPeers ∧ t.avail.closed 2 = false ∧
        t.peerHasPiece 2 0 = true ∧
        Reaches (fun desired => 0 ∈ desired.requests) (t.getDesiredRequestState 1 {}))
      (run step (init smallConfig emptyStorage)
        ([.setInfo smallInfo] ++ baselineJoins ++ [.addConn 2 true false none,
          .message 2 { type := .haveAll } (.other false) 0])) ∧
    Reaches (fun t => t.baselineReady ∧
        (∀ q ∈ t.iterPeers, q ≠ 1 → t.avail.closed q = false → t.peerHasPiece q 0 = false) ∧
        Reaches (fun desired => 0 ∉ desired.requests) (t.getDesiredRequestState 1 {}))
      (run step (init smallConfig emptyStorage)
        ([.setInfo smallInfo, .addConn 2 true false none,
          .message 2 { type := .haveAll } (.other false) 0] ++ baselineJoins ++
          [.closeConn 2])) := by
  decide

theorem baselineJoins_asked :
    Reaches (fun t => t.baselineReady ∧
        Reaches (fun desired => 0 ∈ desired.requests) (t.getDesiredRequestState 1 {}))
      (run step (init smallConfig emptyStorage) (.setInfo smallInfo :: baselineJoins)) ∧
    Gives BaselineRule (run step (init smallConfig emptyStorage)
      (.setInfo smallInfo :: baselineJoins)) :=
  ⟨by decide, baseline_asked_last smallConfig emptyStorage
    (.setInfo smallInfo :: baselineJoins) (by decide)⟩

end ReliableBT
