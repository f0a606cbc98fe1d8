import ReliableBT.Torrent.DataFree

/-!
# Piece availability (`torrent.go`, `peerconn.go`, `webseed-peer.go`)

`relativeAvailability` of a piece is meant to be the number of peers that have it, those in
`connsWithAllPieces` left out: `Avail.sharers`. It is never computed again after the info is set;
`Have`, `Bitfield`, `HaveAll`, `HaveNone`, closing a peer and adding a webseed all adjust it.

* `Recounted t S t'`: what a loop of `incPieceAvailability` and `decPieceAvailability` does. The
  torrent is the same but for `relativeAvailability`, which is now `S`.
* `AccountsOf`: the invariant. It has a parameter `late`, the peers that `onSetInfo` has not told of
  the info yet.
* `Accounts.peerSentHave`, `Accounts.peerSentBitfield`, `Accounts.close` and so on: each function
  keeps the accounts right, and does not panic over them. `peerSentHaveNone` does so only for a
  connection that has not sent `HaveAll`.
-/

open List Function ReliableBT.Avail

namespace ReliableBT

open Torrent

/-- The peer is counted for the piece: it is not closed, it is not in `connsWithAllPieces`, and its
recorded pieces contain the piece. -/
def Avail.shares (a : Avail) (i p : Nat) : Bool :=
  !a.closed p && decide (p ∉ a.connsWithAllPieces) && decide (i ∈ a.peerPieces p)

/-- The number of peers that are counted for the piece. -/
def Avail.sharers (a : Avail) (i : Nat) : Nat := (a.conns ++ a.webSeeds).countP (a.shares i)

/-- All panics but those of accounts that are wrong. -/
def AccountsRight (e : Panic) : Prop := e.group ≠ .avail

variable {t t' : Torrent} {S S' : Nat → Nat} {a : Avail} {i p : Nat}

/-! ## Counting -/

theorem countP_change {l : List Nat} {f f' : Nat → Bool} (hnodup : l.Nodup) (hp : p ∈ l)
    (hf : ∀ q ∈ l, q ≠ p → f' q = f q) :
    l.countP f' + (f p).toNat = l.countP f + (f' p).toNat := by
  induction l with
  | nil => exact absurd hp not_mem_nil
  | cons q l ih =>
    obtain ⟨hq, hl⟩ := nodup_cons.mp hnodup
    rw [countP_cons, countP_cons]
    by_cases hqp : q = p
    · subst hqp
      have hrest : l.countP f' = l.countP f := by
        refine countP_congr fun r hr => ?_
        have hne : r ≠ q := fun heq => hq (heq ▸ hr)
        rw [hf r (mem_cons_of_mem q hr) hne]
      rw [hrest]
      cases f q <;> cases f' q <;> simp
    · have hmem : p ∈ l := (mem_cons.mp hp).resolve_left fun heq => hqp heq.symm
      have hrest := ih hl hmem fun r hr => hf r (mem_cons_of_mem q hr)
      rw [hf q mem_cons_self hqp]
      omega

theorem shares_congr {a a' : Avail} {q : Nat} (hclosed : a'.closed q = a.closed q)
    (hall : q ∈ a'.connsWithAllPieces ↔ q ∈ a.connsWithAllPieces)
    (hpieces : i ∈ a'.peerPieces q ↔ i ∈ a.peerPieces q) : a'.shares i q = a.shares i q := by
  unfold shares
  rw [hclosed, decide_eq_decide.mpr (not_congr hall), decide_eq_decide.mpr hpieces]

theorem sharers_change (a a' : Avail) (i : Nat) (hnodup : (a.conns ++ a.webSeeds).Nodup)
    (hp : p ∈ a.conns ++ a.webSeeds)
    (hpeers : a'.conns ++ a'.webSeeds = a.conns ++ a.webSeeds)
    (hother : ∀ q ≠ p, a'.shares i q = a.shares i q) :
    a'.sharers i + (a.shares i p).toNat = a.sharers i + (a'.shares i p).toNat := by
  unfold sharers
  rw [hpeers]
  exact countP_change hnodup hp fun q _ hq => hother q hq

/-! ## Recounting -/

/-- `t'` is `t` but for the piece request order and `relativeAvailability`, which is `S`. -/
def Recounted (t : Torrent) (S : Nat → Nat) (t' : Torrent) : Prop :=
  ∃ relative order, t' = { t with avail.relative := relative, order := order } ∧
    ∀ i < t.numPieces, relative i = S i

namespace Recounted

theorem refl (h : ∀ i < t.numPieces, t.avail.relative i = S i) : Recounted t S t :=
  ⟨t.avail.relative, t.order, rfl, h⟩

section

variable (h : Recounted t S t')
include h

theorem of_no_info (hinfo : t'.haveInfo = false) : Recounted t S' t' := by
  obtain ⟨relative, order, rfl, -⟩ := h
  refine ⟨relative, order, rfl, fun i hi => ?_⟩
  have hnone : t.info = none := Option.isSome_eq_false_iff.mp hinfo |> Option.isNone_iff_eq_none.mp
  simp [numPieces, hnone] at hi

theorem congr (heq : ∀ i < t.numPieces, S i = S' i) : Recounted t S' t' := by
  obtain ⟨relative, order, rfl, hS⟩ := h
  exact ⟨relative, order, rfl, fun i hi => (hS i hi).trans (heq i hi)⟩

theorem updatePieceRequestOrder (i : Nat) :
    Ends AccountsRight (Recounted t S) (t'.updatePieceRequestOrder i) := by
  unfold Torrent.updatePieceRequestOrder
  split_ifs
  · exact h
  · exact nofun
  · exact nofun
  · obtain ⟨relative, order, rfl, hS⟩ := h
    exact ⟨relative, _, rfl, hS⟩

theorem set (i n : Nat) :
    Recounted t (update S i n) { t' with avail.relative := update t'.avail.relative i n } := by
  obtain ⟨relative, order, rfl, hS⟩ := h
  refine ⟨update relative i n, order, rfl, fun j hj => ?_⟩
  by_cases hji : j = i
  · subst hji
    rw [update_self, update_self]
  · rw [update_of_ne hji, update_of_ne hji]
    exact hS j hj

theorem incPieceAvailability (i : Nat) :
    Ends AccountsRight (Recounted t (update S i (S i + 1))) (t'.incPieceAvailability i) := by
  unfold Torrent.incPieceAvailability
  split_ifs with hinfo hi
  · exact h.of_no_info (by simpa using hinfo)
  · exact nofun
  · have hcount : t'.avail.relative i = S i := by
      obtain ⟨relative, order, rfl, hS⟩ := h
      exact hS i (Nat.lt_of_not_le hi)
    rw [hcount]
    exact (h.set i (S i + 1)).updatePieceRequestOrder i

theorem decPieceAvailability (hpos : i < t.numPieces → S i ≠ 0) :
    Ends AccountsRight (Recounted t (update S i (S i - 1))) (t'.decPieceAvailability i) := by
  unfold Torrent.decPieceAvailability
  split_ifs with hinfo hi hzero
  · exact h.of_no_info (by simpa using hinfo)
  · exact nofun
  · obtain ⟨relative, order, rfl, hS⟩ := h
    have hlt : i < t.numPieces := Nat.lt_of_not_le hi
    exact absurd ((hS i hlt).symm.trans hzero) (hpos hlt)
  · have hcount : t'.avail.relative i = S i := by
      obtain ⟨relative, order, rfl, hS⟩ := h
      exact hS i (Nat.lt_of_not_le hi)
    rw [hcount]
    exact (h.set i (S i - 1)).updatePieceRequestOrder i

end

theorem loop {f : Torrent → Nat → Except Panic Torrent} {l : List Nat} (h : Recounted t S t')
    (S' : Nat → Nat) (hnodup : l.Nodup)
    (hf : ∀ i ∈ l, ∀ S₁ t₁, Recounted t S₁ t₁ → S₁ i = S i →
      Ends AccountsRight (Recounted t (update S₁ i (S' i))) (f t₁ i)) :
    Ends AccountsRight (Recounted t fun i => if i ∈ l then S' i else S i) (l.foldlM f t') := by
  induction l generalizing S t' with
  | nil => exact h.congr fun i _ => by simp
  | cons j l ih =>
    obtain ⟨hj, hl⟩ := nodup_cons.mp hnodup
    rw [foldlM_cons]
    refine (hf j mem_cons_self S t' h rfl).bind fun t₁ ht₁ => ?_
    refine (ih ht₁ hl fun i hi S₁ t₂ ht₂ hS₁ => ?_).imp fun t₂ ht₂ => ht₂.congr fun i _ => ?_
    · have hne : i ≠ j := fun heq => hj (heq ▸ hi)
      refine hf i (mem_cons_of_mem j hi) S₁ t₂ ht₂ ?_
      rw [hS₁, update_of_ne hne]
    · by_cases hij : i = j
      · subst hij
        simp [hj]
      · simp [hij]

theorem decPieces {pieces : Bitmap} (h : Recounted t S t')
    (hin : ∀ i < t.numPieces, i ∈ pieces → S i = S' i + 1)
    (hout : ∀ i < t.numPieces, i ∉ pieces → S i = S' i) :
    Ends AccountsRight (Recounted t S') (t'.decPieces pieces) := by
  refine (h.loop (fun i => S i - 1) pieces.nodup fun i hi S₁ t₁ ht₁ hS₁ => ?_).imp
    fun t₂ ht₂ => ht₂.congr fun i hi => ?_
  · rw [← hS₁]
    refine ht₁.decPieceAvailability fun hlt => ?_
    rw [hS₁, hin i hlt hi]
    exact Nat.succ_ne_zero _
  · split_ifs with hmem
    · rw [hin i hi hmem]
      rfl
    · exact hout i hi hmem

theorem incPieces (h : Recounted t S t') (pieces : Bitmap) :
    Ends AccountsRight (Recounted t fun i => S i + (decide (i ∈ pieces)).toNat)
      (pieces.elems.foldlM (fun t i => t.incPieceAvailability i) t') := by
  refine (h.loop (fun i => S i + 1) pieces.nodup fun i hi S₁ t₁ ht₁ hS₁ => ?_).imp
    fun t₂ ht₂ => ht₂.congr fun i hi => ?_
  · rw [← hS₁]
    exact ht₁.incPieceAvailability i
  · by_cases hmem : i ∈ pieces
    · simp [Bitmap.mem_elems, hmem]
    · simp [Bitmap.mem_elems, hmem]

end Recounted

/-! ## The accounts -/

/-- The accounts are right. The info is known, but the peers that are `late` have not been told. -/
structure AccountsOf (isConn : Nat → Bool) (numPieces : Nat) (hasInfo : Bool) (late : Nat → Prop)
    (a : Avail) : Prop extends RosterOf isConn a.conns a.webSeeds a.peerIds where
  gone : ∀ p ∈ a.peerIds, isConn p = true → p ∉ a.conns → a.closed p = true
  allNodup : a.connsWithAllPieces.Nodup
  all : ∀ p ∈ a.connsWithAllPieces,
    p ∈ a.conns ∧ a.closed p = false ∧ a.peerSentHaveAll p = true
  haveAll : ∀ p ∈ a.conns, a.closed p = false → a.peerSentHaveAll p = true →
    p ∈ a.connsWithAllPieces ∧ ∀ i, i ∉ a.peerPieces p
  range : hasInfo = true → ∀ p ∈ a.conns ++ a.webSeeds, ¬ late p →
    ∀ i ∈ a.peerPieces p, i < numPieces
  early : ∀ p ∈ a.webSeeds, hasInfo = false ∨ late p → ∀ i, i ∉ a.peerPieces p
  awake : ∀ p ∈ a.webSeeds, late p → a.closed p = false
  counted : ∀ i < numPieces, a.relative i = a.sharers i

/-- The torrent's accounts are right, but for peers that are late. -/
def Accounts (late : Nat → Prop) (t : Torrent) : Prop :=
  AccountsOf t.isConn t.numPieces t.haveInfo late t.avail

/-- No peer is late. -/
def NoneLate (_ : Nat) : Prop := False

variable {late : Nat → Prop}

theorem accounts_reqsFree (late : Nat → Prop) : ReqsFree AccountsRight (Accounts late) where
  panic e he := by rcases he with he | he | he <;> simp [AccountsRight, he]

namespace AccountsOf

variable {isConn : Nat → Bool} {numPieces : Nat} {hasInfo : Bool}

section

variable (h : AccountsOf isConn numPieces hasInfo late a)
include h

theorem not_all_of_not_haveAll (hp : a.peerSentHaveAll p = false) : p ∉ a.connsWithAllPieces := by
  intro hmem
  have hsent := (h.all p hmem).2.2
  rw [hp] at hsent
  cases hsent

theorem not_all_of_closed (hp : a.closed p = true) : p ∉ a.connsWithAllPieces := by
  intro hmem
  have hopen := (h.all p hmem).2.1
  rw [hp] at hopen
  cases hopen

theorem not_web_of_conn (hp : p ∈ a.conns) : p ∉ a.webSeeds := by
  intro hmem
  have hweb := h.web p hmem
  rw [h.conn p hp] at hweb
  cases hweb

theorem shares_iff (hp : p ∈ a.conns)
    (hopen : a.closed p = false) (i : Nat) : a.shares i p = decide (i ∈ a.peerPieces p) := by
  unfold shares
  by_cases hall : p ∈ a.connsWithAllPieces
  · have hnone := (h.haveAll p hp hopen (h.all p hall).2.2).2 i
    simp [hall, hnone]
  · simp [hopen, hall]

end

end AccountsOf

/-! ## The pieces of one connection change -/

/-- The recorded pieces of a peer, and whether it is in `connsWithAllPieces`, are changed. -/
def Avail.record (a : Avail) (p : Nat) (pieces : Bitmap) (withAll : List Nat) (sentHaveAll : Bool) :
    Avail :=
  { a with
    peerPieces := update a.peerPieces p pieces
    connsWithAllPieces := withAll
    peerSentHaveAll := update a.peerSentHaveAll p sentHaveAll }

section Record

variable {isConn : Nat → Bool} {numPieces : Nat} {hasInfo : Bool} {pieces : Bitmap}
  {withAll : List Nat} {sentHaveAll : Bool}

/-- `withAll` is `connsWithAllPieces` with, or without, the peer. -/
structure Listed (a : Avail) (p : Nat) (sentHaveAll : Bool) (withAll : List Nat) : Prop where
  nodup : withAll.Nodup
  self : p ∈ withAll ↔ sentHaveAll = true
  other : ∀ q ≠ p, q ∈ withAll ↔ q ∈ a.connsWithAllPieces

theorem shares_record_of_ne (hlisted : Listed a p sentHaveAll withAll) (i : Nat) {q : Nat}
    (hq : q ≠ p) : (a.record p pieces withAll sentHaveAll).shares i q = a.shares i q :=
  shares_congr rfl (hlisted.other q hq) (by simp [record, hq])

theorem sharers_record (h : AccountsOf isConn numPieces hasInfo late a) (hp : p ∈ a.conns)
    (hopen : a.closed p = false) (hlisted : Listed a p sentHaveAll withAll)
    (hempty : sentHaveAll = true → ∀ i, i ∉ pieces) (i : Nat) :
    (a.record p pieces withAll sentHaveAll).sharers i + (decide (i ∈ a.peerPieces p)).toNat =
      a.sharers i + (decide (i ∈ pieces)).toNat := by
  have hchange := sharers_change a (a.record p pieces withAll sentHaveAll) i h.nodup
    (mem_append_left _ hp) rfl fun q hq => shares_record_of_ne hlisted i hq
  have hself : (a.record p pieces withAll sentHaveAll).shares i p = decide (i ∈ pieces) := by
    cases hsent : sentHaveAll with
    | true => simp [shares, record, hempty hsent i]
    | false =>
      have hnot : p ∉ withAll := fun hmem => by
        rw [hlisted.self.mp hmem] at hsent
        cases hsent
      simp [shares, record, hopen, hnot]
  rw [hself, h.shares_iff hp hopen] at hchange
  exact hchange

theorem AccountsOf.record (h : AccountsOf isConn numPieces hasInfo late a) (hp : p ∈ a.conns)
    (hopen : a.closed p = false) (hlisted : Listed a p sentHaveAll withAll)
    (hempty : sentHaveAll = true → ∀ i, i ∉ pieces)
    (hrange : hasInfo = true → ¬ late p → ∀ i ∈ pieces, i < numPieces)
    (relative : Nat → Nat) (moves : Nat) (hcount : ∀ i < numPieces,
      relative i = (a.record p pieces withAll sentHaveAll).sharers i) :
    AccountsOf isConn numPieces hasInfo late
      { a.record p pieces withAll sentHaveAll with relative := relative, moves := moves } where
  toRosterOf := h.toRosterOf
  gone := h.gone
  allNodup := hlisted.nodup
  all q hq := by
    by_cases hqp : q = p
    · subst hqp
      exact ⟨hp, hopen, by simp [record, hlisted.self.mp hq]⟩
    · obtain ⟨hconn, hclosed, hsent⟩ := h.all q ((hlisted.other q hqp).mp hq)
      exact ⟨hconn, hclosed, by simp [Avail.record, hqp, hsent]⟩
  haveAll q hq hclosed hsent := by
    by_cases hqp : q = p
    · subst hqp
      have hself : sentHaveAll = true := by simpa [record] using hsent
      exact ⟨hlisted.self.mpr hself, by simpa [record] using hempty hself⟩
    · have hold : a.peerSentHaveAll q = true := by simpa [Avail.record, hqp] using hsent
      obtain ⟨hall, hnone⟩ := h.haveAll q hq hclosed hold
      exact ⟨(hlisted.other q hqp).mpr hall, by simpa [Avail.record, hqp] using hnone⟩
  range hinfo q hq hlate i hi := by
    by_cases hqp : q = p
    · subst hqp
      exact hrange hinfo hlate i (by simpa [record] using hi)
    · exact h.range hinfo q hq hlate i (by simpa [Avail.record, hqp] using hi)
  early q hq hlate := by
    have hqp : q ≠ p := fun heq => h.not_web_of_conn hp (heq ▸ hq)
    simpa [Avail.record, hqp] using h.early q hq hlate
  awake := h.awake
  counted := hcount

end Record

/-! ## A peer is closed -/

/-- The peer is closed, and not in `connsWithAllPieces`. -/
def Avail.closing (a : Avail) (p : Nat) (withAll : List Nat) : Avail :=
  { a with closed := update a.closed p true, connsWithAllPieces := withAll }

section Closing

variable {isConn : Nat → Bool} {numPieces : Nat} {hasInfo : Bool} {withAll : List Nat}

section

variable (h : AccountsOf isConn numPieces hasInfo late a)
include h

theorem sharers_closing
    (hp : p ∈ a.conns ++ a.webSeeds) (hlist : withAll = a.connsWithAllPieces.erase p) (i : Nat) :
    (a.closing p withAll).sharers i + (a.shares i p).toNat = a.sharers i := by
  have hchange := sharers_change a (a.closing p withAll) i h.nodup hp rfl fun q hq => by
    have hother : q ∈ withAll ↔ q ∈ a.connsWithAllPieces := by
      rw [hlist]
      exact mem_erase_of_ne hq
    exact shares_congr (update_of_ne hq _ _) hother Iff.rfl
  have hself : (a.closing p withAll).shares i p = false := by simp [shares, closing]
  rw [hself] at hchange
  exact hchange

theorem AccountsOf.closing (hlate : late p → isConn p = true)
    (hlist : withAll = a.connsWithAllPieces.erase p) {relative : Nat → Nat} {moves : Nat}
    (hcount : ∀ i < numPieces, relative i = (a.closing p withAll).sharers i) :
    AccountsOf isConn numPieces hasInfo late
      { a.closing p withAll with relative := relative, moves := moves } where
  toRosterOf := h.toRosterOf
  gone q hq hconn hnot := by
    by_cases hqp : q = p
    · subst hqp
      simp [closing]
    · simpa [Avail.closing, hqp] using h.gone q hq hconn hnot
  allNodup := by
    rw [Avail.closing, hlist]
    exact h.allNodup.erase p
  all q hq := by
    have hmem : q ∈ a.connsWithAllPieces.erase p := hlist ▸ hq
    obtain ⟨hqp, hmem⟩ := h.allNodup.mem_erase_iff.mp hmem
    obtain ⟨hconn, hclosed, hsent⟩ := h.all q hmem
    exact ⟨hconn, by simpa [Avail.closing, hqp] using hclosed, hsent⟩
  haveAll q hq hclosed hsent := by
    have hqp : q ≠ p := by
      rintro rfl
      simp [closing] at hclosed
    have hopen : a.closed q = false := by simpa [Avail.closing, hqp] using hclosed
    obtain ⟨hall, hnone⟩ := h.haveAll q hq hopen hsent
    refine ⟨?_, hnone⟩
    change q ∈ withAll
    rw [hlist]
    exact (mem_erase_of_ne hqp).mpr hall
  range := h.range
  early := h.early
  awake q hq hlateq := by
    have hqp : q ≠ p := by
      rintro rfl
      have hconn := hlate hlateq
      rw [h.web q hq] at hconn
      cases hconn
    simpa [Avail.closing, hqp] using h.awake q hq hlateq
  counted := hcount

theorem AccountsOf.erase (hp : a.closed p = true) :
    AccountsOf isConn numPieces hasInfo late { a with conns := a.conns.erase p } where
  toRosterOf := h.toRosterOf.erase p
  gone q hq hconn hnot := by
    by_cases hqp : q = p
    · exact hqp ▸ hp
    · exact h.gone q hq hconn fun hmem => hnot ((mem_erase_of_ne hqp).mpr hmem)
  allNodup := h.allNodup
  all q hq := by
    obtain ⟨hconn, hrest⟩ := h.all q hq
    have hqp : q ≠ p := fun heq => h.not_all_of_closed hp (heq ▸ hq)
    exact ⟨(mem_erase_of_ne hqp).mpr hconn, hrest⟩
  haveAll q hq := h.haveAll q (mem_of_mem_erase hq)
  range hinfo q hq := h.range hinfo q <| by
    rcases mem_append.mp hq with hq | hq
    · exact mem_append_left _ (mem_of_mem_erase hq)
    · exact mem_append_right _ hq
  early := h.early
  awake := h.awake
  counted i hi := by
    have hself : a.shares i p = false := by simp [shares, hp]
    rw [h.counted i hi]
    unfold sharers
    rw [countP_append, countP_append]
    congr 1
    change a.conns.countP (a.shares i) = (a.conns.erase p).countP (a.shares i)
    by_cases hmem : p ∈ a.conns
    · rw [(perm_cons_erase hmem).countP_eq, countP_cons, hself]
      simp
    · rw [erase_of_not_mem hmem]

end

end Closing

/-- What the accounts are about is the same. -/
def SameAccounts (t t' : Torrent) : Prop :=
  t'.avail = t.avail ∧ t'.info = t.info ∧ t'.kind = t.kind

theorem sameAccounts_reqsFree (t : Torrent) : ReqsFree AccountsRight (SameAccounts t) where
  panic := (accounts_reqsFree fun _ => True).panic

theorem onClose_sameAccounts (t : Torrent) (p : Nat) :
    Ends AccountsRight (SameAccounts t) (t.onClose p) := by
  have h := sameAccounts_reqsFree t
  unfold onClose
  split
  · exact ⟨rfl, rfl, rfl⟩
  · exact (h.unbooks.cancelAllRequests ⟨rfl, rfl, rfl⟩ p).bind fun _ ht' => h.updateLowPeers ht' _

namespace Accounts

theorem decPeerPieceAvailability (h : AccountsOf t.isConn t.numPieces t.haveInfo late a)
    (ha : t.avail = { a with closed := update a.closed p true })
    (hp : p ∈ a.conns ++ a.webSeeds) (hopen : a.closed p = false)
    (hlate : late p → t.isConn p = true) :
    Ends AccountsRight (fun t' => Accounts late t' ∧ t'.iterPeers = t.iterPeers ∧
      t'.avail.closed = t.avail.closed) (t.decPeerPieceAvailability p) := by
  unfold Torrent.decPeerPieceAvailability deleteConnWithAllPieces
  by_cases hall : p ∈ t.avail.connsWithAllPieces
  · rw [if_pos hall]
    rw [ha] at hall
    -- it was not counted before, and is not now
    have hself : ∀ i, a.shares i p = false := fun i => by
      have hmem : p ∈ a.connsWithAllPieces := hall
      simp [shares, hmem]
    have hcount : ∀ i < t.numPieces,
        a.relative i = (a.closing p (a.connsWithAllPieces.erase p)).sharers i := fun i hi => by
      have hsame := sharers_closing h hp rfl i
      rw [hself i] at hsame
      exact (h.counted i hi).trans hsame.symm
    refine ⟨?_, rfl, rfl⟩
    unfold Accounts
    dsimp only
    rw [ha]
    exact h.closing hlate rfl hcount
  · rw [if_neg hall]
    rw [ha] at hall
    have hlist : a.connsWithAllPieces = a.connsWithAllPieces.erase p :=
      (erase_of_not_mem hall).symm
    have hdec : Ends AccountsRight
        (Recounted t (a.closing p a.connsWithAllPieces).sharers)
        (if !t.haveInfo then .ok t else t.decPieces (t.avail.peerPieces p)) := by
      have hstart : Recounted t a.sharers t :=
        Recounted.refl fun i hi => by
          rw [ha]
          exact h.counted i hi
      split_ifs with hinfo
      · exact hstart.of_no_info (by simpa using hinfo)
      · have hpieces : t.avail.peerPieces p = a.peerPieces p := by rw [ha]
        rw [hpieces]
        refine hstart.decPieces (fun i _ hmem => ?_) fun i _ hmem => ?_
        · have hself : a.shares i p = true := by
            have hnot : p ∉ a.connsWithAllPieces := hall
            simp [shares, hopen, hnot, hmem]
          have hchange := sharers_closing h hp hlist i
          rw [hself] at hchange
          exact hchange.symm
        · have hself : a.shares i p = false := by simp [shares, hmem]
          have hchange := sharers_closing h hp hlist i
          rw [hself] at hchange
          exact hchange.symm
    refine hdec.imp ?_
    rintro _ ⟨relative, order, rfl, hcount⟩
    refine ⟨?_, rfl, rfl⟩
    unfold Accounts
    dsimp only
    rw [ha]
    exact h.closing hlate hlist hcount

theorem close (h : Accounts late t) (hp : p ∈ t.iterPeers)
    (hlate : late p → t.isConn p = true) :
    Ends AccountsRight (fun t' => Accounts late t' ∧ t'.iterPeers = t.iterPeers ∧
      t'.avail.closed = update t.avail.closed p true) (t.close p) := by
  unfold Torrent.close
  split_ifs with hclosed
  · refine ⟨h, rfl, ?_⟩
    rw [← hclosed, update_eq_self]
  · refine (onClose_sameAccounts _ p).bind fun t₁ ⟨havail, hinfo, hkind⟩ => ?_
    have hconn : t₁.isConn = t.isConn := by
      unfold isConn
      rw [hkind]
    have hnum : t₁.numPieces = t.numPieces := by
      unfold numPieces
      rw [hinfo]
    have hhave : t₁.haveInfo = t.haveInfo := by
      unfold haveInfo
      rw [hinfo]
    have h₁ : AccountsOf t₁.isConn t₁.numPieces t₁.haveInfo late t.avail := by
      rw [hconn, hnum, hhave]
      exact h
    have hlate₁ : late p → t₁.isConn p = true := by
      rw [hconn]
      exact hlate
    refine (decPeerPieceAvailability h₁ havail hp (by simpa using hclosed) hlate₁).imp
      fun t₂ ⟨ht₂, hpeers, hclosed₂⟩ => ⟨ht₂, ?_, ?_⟩
    · rw [hpeers]
      unfold iterPeers
      rw [havail]
    · rw [hclosed₂, havail]

theorem dropConnection (h : Accounts late t) (hp : p ∈ t.avail.peerIds)
    (hconn : t.isConn p = true) : Ends AccountsRight (Accounts late) (t.dropConnection p) := by
  have hclose : Ends AccountsRight (fun t' => Accounts late t' ∧ t'.avail.closed p = true)
      (t.close p) := by
    by_cases hmem : p ∈ t.avail.conns
    · refine (h.close (mem_append_left _ hmem) fun _ => hconn).imp
        fun t₁ ⟨ht₁, _, hclosed⟩ => ⟨ht₁, ?_⟩
      rw [hclosed, update_self]
    · -- a connection that has gone is closed
      have hclosed := h.gone p hp hconn hmem
      unfold Torrent.close
      rw [if_pos hclosed]
      exact ⟨h, hclosed⟩
  refine hclose.bind fun t₁ ⟨ht₁, hclosed⟩ => ?_
  refine Ends.require (fun _ => ?_) fun hno => absurd hclosed hno
  have herase : Accounts late { t₁ with avail.conns := t₁.avail.conns.erase p } :=
    AccountsOf.erase ht₁ hclosed
  refine ((accounts_reqsFree late).unbooks.deleteAllRequests herase p _).bind fun t₂ ht₂ => ?_
  refine Ends.require (fun _ => ht₂) fun hno => ?_
  -- whoever is in `connsWithAllPieces` is among the connections
  obtain ⟨hnone, hall⟩ := not_or.mp hno
  obtain ⟨q, hq⟩ := exists_mem_of_ne_nil _ hall
  have hmem := mem_append_left t₂.avail.webSeeds (ht₂.all q hq).1
  exact absurd (ne_nil_of_mem hmem) hnone

theorem maybeDrop (h : Accounts late t) (hp : p ∈ t.avail.peerIds) :
    Ends AccountsRight (Accounts late) (t.maybeDropMutuallyCompletePeer p) :=
  ends_maybeDrop p h fun _ hconn => h.dropConnection hp hconn

theorem updateThenDrop (h : Accounts late t) (hp : p ∈ t.avail.peerIds) {reason : UpdateReason}
    (hreason : reason ≠ .timer) : Ends AccountsRight (Accounts late)
      ((t.updateRequests p reason).maybeDropMutuallyCompletePeer p) := by
  refine maybeDrop ((accounts_reqsFree late).updateRequests h p (.inl hreason)) ?_
  have hsame := (sameAccounts_reqsFree t).updateRequests ⟨rfl, rfl, rfl⟩ p (.inl hreason)
  rw [hsame.1]
  exact hp

end Accounts

/-! ## Messages -/

theorem AccountsOf.listed {isConn : Nat → Bool} {numPieces : Nat} {hasInfo : Bool}
    (h : AccountsOf isConn numPieces hasInfo late a) (hp : p ∈ a.conns)
    (hopen : a.closed p = false) : Listed a p (a.peerSentHaveAll p) a.connsWithAllPieces where
  nodup := h.allNodup
  self := ⟨fun hmem => (h.all p hmem).2.2, fun hsent => (h.haveAll p hp hopen hsent).1⟩
  other _ _ := Iff.rfl

theorem record_pieces (a : Avail) (p : Nat) (pieces : Bitmap) :
    a.record p pieces a.connsWithAllPieces (a.peerSentHaveAll p) =
      { a with peerPieces := update a.peerPieces p pieces } := by
  unfold record
  rw [update_eq_self]

theorem lacks_of_not_peerHasPiece (hconn : t.isConn p = true) (h : ¬ t.peerHasPiece p i = true) :
    t.avail.peerSentHaveAll p = false ∧ i ∉ t.avail.peerPieces p := by
  unfold peerHasPiece at h
  split_ifs at h with hall
  · exact absurd rfl h
  · refine ⟨?_, by simpa using h⟩
    unfold isConn at hconn
    unfold peerHasAllPieces at hall
    split at hall
    · by_contra hsent
      rw [if_pos (eq_true_of_ne_false hsent)] at hall
      exact hall rfl
    · rename_i hkind
      rw [hkind] at hconn
      cases hconn

namespace Accounts

section

variable (h : Accounts late t)
include h

theorem start : Recounted t t.avail.sharers t := Recounted.refl h.counted

theorem peerGotPiece (hp : p ∈ t.avail.conns)
    (hopen : t.avail.closed p = false) (hlacks : ¬ t.peerHasPiece p i = true)
    (hi : t.haveInfo = true → i < t.numPieces) :
    Ends AccountsRight (Accounts late) (t.peerGotPiece p i) := by
  have hknown := h.known p (mem_append_left _ hp)
  obtain ⟨hsent, hnot⟩ := lacks_of_not_peerHasPiece (h.conn p hp) hlacks
  have hlisted := h.listed hp hopen
  have hempty : t.avail.peerSentHaveAll p = true → ∀ j, j ∉ (t.avail.peerPieces p).add i := by
    rw [hsent]
    nofun
  refine (h.start.incPieceAvailability i).bind ?_
  rintro _ ⟨relative, order, rfl, hcount⟩
  have hrecord : Accounts late { t with
      avail.relative := relative
      avail.peerPieces := update t.avail.peerPieces p ((t.avail.peerPieces p).add i)
      order := order } := by
    have hnew := AccountsOf.record h hp hopen hlisted hempty (fun hinfo hlate j hj => ?_) relative
      t.avail.moves fun j hj => ?_
    · rw [record_pieces] at hnew
      exact hnew
    · rcases Bitmap.mem_add.mp hj with rfl | hj
      · exact hi hinfo
      · exact h.range hinfo p (mem_append_left _ hp) hlate j hj
    · rw [hcount j hj]
      have hchange := sharers_record h hp hopen hlisted hempty j
      by_cases hji : j = i
      · subst hji
        rw [update_self]
        simp [hnot] at hchange
        exact hchange.symm
      · rw [update_of_ne hji]
        simp [hji] at hchange
        exact hchange.symm
  dsimp only
  split_ifs
  · exact hrecord.updateThenDrop hknown nofun
  · exact hrecord.maybeDrop hknown

theorem peerSentHave (hp : p ∈ t.avail.conns)
    (hopen : t.avail.closed p = false) (i : Nat) :
    Ends AccountsRight (fun x => Accounts late x.1) (t.peerSentHave p i) := by
  unfold Torrent.peerSentHave
  split_ifs with hbad hhas
  · exact h
  · exact h
  · have hi : t.haveInfo = true → i < t.numPieces := fun hinfo =>
      Nat.lt_of_not_le fun hle => hbad ⟨hinfo, hle⟩
    exact (h.peerGotPiece hp hopen hhas hi).bind fun t₁ ht₁ => ht₁

theorem changePieces (hp : p ∈ t.avail.conns)
    (hopen : t.avail.closed p = false) (hsent : t.avail.peerSentHaveAll p = false)
    (changing : Bitmap) (hrange : t.haveInfo = true → ¬ late p →
      ∀ i ∈ (t.avail.peerPieces p).xor changing, i < t.numPieces) :
    Ends AccountsRight (Accounts late) (t.changePieces p changing) := by
  have hknown := h.known p (mem_append_left _ hp)
  have hlisted := h.listed hp hopen
  have hempty : t.avail.peerSentHaveAll p = true →
      ∀ i, i ∉ (t.avail.peerPieces p).xor changing := by
    rw [hsent]
    nofun
  have hchange := sharers_record h hp hopen hlisted hempty
  generalize hS : (t.avail.record p ((t.avail.peerPieces p).xor changing)
    t.avail.connsWithAllPieces (t.avail.peerSentHaveAll p)).sharers = S' at hchange
  have hloop : Ends AccountsRight (Recounted t S') (changing.elems.foldlM (changePiece p) t) := by
    refine (h.start.loop S' changing.nodup fun i hi S₁ t₁ ht₁ hS₁ => ?_).imp
      fun t₂ ht₂ => ht₂.congr fun i _ => ?_
    · have hmem : i ∈ changing := hi
      have hpieces : t₁.avail.peerPieces = t.avail.peerPieces := by
        obtain ⟨relative, order, rfl, -⟩ := ht₁
        rfl
      have hone := hchange i
      unfold changePiece
      rw [hpieces]
      split_ifs with hhas
      · simp [hhas, hmem] at hone
        have hless : S' i = S₁ i - 1 := by omega
        rw [hless]
        exact ht₁.decPieceAvailability fun _ => by omega
      · simp [hhas, hmem] at hone
        have hmore : S' i = S₁ i + 1 := by omega
        rw [hmore]
        exact ht₁.incPieceAvailability i
    · split_ifs with hmem
      · rfl
      · have hnot : i ∉ changing := hmem
        have hone := hchange i
        simp [hnot] at hone
        exact hone.symm
  refine hloop.bind ?_
  rintro _ ⟨relative, order, rfl, hcount⟩
  have hrecord : Accounts late { t with
      avail.relative := relative
      avail.peerPieces :=
        update t.avail.peerPieces p ((t.avail.peerPieces p).xor changing)
      order := order } := by
    have hnew := AccountsOf.record h hp hopen hlisted hempty hrange relative t.avail.moves
      fun i hi => (hcount i hi).trans (congrFun hS i).symm
    rw [record_pieces] at hnew
    exact hnew
  dsimp only
  split_ifs
  · exact hrecord.updateThenDrop hknown nofun
  · exact hrecord.maybeDrop hknown

/-- The loop of `decPieceAvailability` over the pieces of a connection that has none of its own
afterwards. -/
theorem decRecorded (hp : p ∈ t.avail.conns)
    (hopen : t.avail.closed p = false) {sentHaveAll : Bool} {withAll : List Nat}
    (hlisted : Listed t.avail p sentHaveAll withAll) :
    Ends AccountsRight
      (Recounted t (t.avail.record p Bitmap.empty withAll sentHaveAll).sharers)
      (t.decPieces (t.avail.peerPieces p)) := by
  have hchange := sharers_record h hp hopen hlisted fun _ i => Bitmap.not_mem_empty i
  refine h.start.decPieces (fun i _ hmem => ?_) fun i _ hmem => ?_
  · have hone := hchange i
    simp [hmem] at hone
    exact hone.symm
  · have hone := hchange i
    simp [hmem] at hone
    exact hone.symm

theorem clear (hp : p ∈ t.avail.conns) (hopen : t.avail.closed p = false)
    {sentHaveAll : Bool} {withAll : List Nat} (hlisted : Listed t.avail p sentHaveAll withAll)
    (relative : Nat → Nat) (hcount : ∀ i < t.numPieces,
      relative i = (t.avail.record p Bitmap.empty withAll sentHaveAll).sharers i)
    (moves : Nat) (order : Nat → Option PieceRequestOrderState) :
    Accounts late { t with
      avail := { t.avail.record p Bitmap.empty withAll sentHaveAll with
        relative := relative, moves := moves }
      order := order } :=
  AccountsOf.record h hp hopen hlisted (fun _ i => Bitmap.not_mem_empty i)
    (fun _ _ i hi => absurd hi (Bitmap.not_mem_empty i)) relative moves hcount

theorem onPeerHasAllPieces (hp : p ∈ t.avail.conns)
    (hopen : t.avail.closed p = false) :
    Ends AccountsRight (Accounts late) (t.onPeerHasAllPieces p) := by
  have hknown := h.known p (mem_append_left _ hp)
  obtain ⟨withAll, hwithAll⟩ : ∃ withAll, withAll =
      if p ∈ t.avail.connsWithAllPieces then t.avail.connsWithAllPieces
      else p :: t.avail.connsWithAllPieces := ⟨_, rfl⟩
  have hlisted : Listed t.avail p true withAll := by
    rw [hwithAll]
    split_ifs with hall
    · exact ⟨h.allNodup, by simp [hall], fun _ _ => Iff.rfl⟩
    · exact ⟨nodup_cons.mpr ⟨hall, h.allNodup⟩, by simp, fun q hq => by simp [hq]⟩
  have hdec : Ends AccountsRight
      (Recounted t (t.avail.record p Bitmap.empty withAll true).sharers)
      (doIf t.haveInfo t (t.decPieces (t.avail.peerPieces p))) :=
    Ends.doIf (fun _ => h.decRecorded hp hopen hlisted)
      fun hinfo => h.start.of_no_info (eq_false_of_ne_true hinfo)
  refine hdec.bind ?_
  rintro _ ⟨relative, order, rfl, hcount⟩
  have hclear := h.clear hp hopen hlisted relative hcount
  unfold addConnWithAllPieces
  dsimp only
  by_cases hall : p ∈ t.avail.connsWithAllPieces
  · rw [if_pos hall] at hwithAll ⊢
    subst hwithAll
    split_ifs
    · exact (hclear _ _).maybeDrop hknown
    · exact (hclear _ _).updateThenDrop hknown nofun
  · rw [if_neg hall] at hwithAll ⊢
    subst hwithAll
    split_ifs
    · exact (hclear _ _).maybeDrop hknown
    · exact (hclear _ _).updateThenDrop hknown nofun
    · exact (hclear _ _).maybeDrop hknown
    · exact (hclear _ _).updateThenDrop hknown nofun

theorem peerSentHaveNone (hp : p ∈ t.avail.conns)
    (hopen : t.avail.closed p = false) (hsent : t.avail.peerSentHaveAll p = false) :
    Ends AccountsRight (Accounts late) (t.peerSentHaveNone p) := by
  have hknown := h.known p (mem_append_left _ hp)
  have hnot := h.not_all_of_not_haveAll hsent
  have hlisted : Listed t.avail p false t.avail.connsWithAllPieces :=
    ⟨h.allNodup, by simp [hnot], fun _ _ => Iff.rfl⟩
  have hdec : Ends AccountsRight
      (Recounted t (t.avail.record p Bitmap.empty t.avail.connsWithAllPieces false).sharers)
      (doIf (!t.avail.peerSentHaveAll p) t (t.decPeerPieceAvailability p)) := by
    refine Ends.doIf (fun _ => ?_) fun hno => absurd (by simp [hsent]) hno
    unfold Torrent.decPeerPieceAvailability deleteConnWithAllPieces
    rw [if_neg hnot]
    dsimp only
    split_ifs with hinfo
    · exact h.start.of_no_info (by simpa using hinfo)
    · exact h.decRecorded hp hopen hlisted
  refine hdec.bind ?_
  rintro _ ⟨relative, order, rfl, hcount⟩
  exact (h.clear hp hopen hlisted relative hcount t.avail.moves order).maybeDrop hknown

/-! A bitfield of a connection that had everything takes that back first. -/

theorem takeBackHaveAll (hp : p ∈ t.avail.conns)
    (hopen : t.avail.closed p = false) (hsent : t.avail.peerSentHaveAll p = true) :
    Ends AccountsRight (fun t' => Accounts late t' ∧ t'.avail.conns = t.avail.conns ∧
      t'.avail.closed = t.avail.closed ∧ t'.avail.peerPieces = t.avail.peerPieces ∧
      t'.avail.peerSentHaveAll p = false ∧ t'.info = t.info) (t.takeBackHaveAll p) := by
  obtain ⟨hall, hnone⟩ := h.haveAll p hp hopen hsent
  have hlisted : Listed t.avail p false (t.avail.connsWithAllPieces.erase p) :=
    ⟨h.allNodup.erase p, by simp [h.allNodup.not_mem_erase],
      fun q hq => mem_erase_of_ne hq⟩
  have hpieces : t.avail.peerPieces p = Bitmap.empty :=
    Bitmap.ext_mem fun i =>
      ⟨fun hi => absurd hi (hnone i), fun hi => absurd hi (Bitmap.not_mem_empty i)⟩
  have hchange := sharers_record h hp hopen hlisted fun _ i => Bitmap.not_mem_empty i
  have hclear := h.clear hp hopen hlisted t.avail.relative (fun i hi => by
    have hone := hchange i
    simp [hnone i] at hone
    rw [hone]
    exact h.counted i hi)
  unfold Torrent.takeBackHaveAll deleteConnWithAllPieces
  rw [if_pos hall]
  refine Ends.require (fun _ => ?_) fun hno => absurd rfl hno
  refine Ends.require (fun _ => ?_) fun hno => absurd (Bitmap.isEmpty_iff.mpr hnone) hno
  have hsame : update t.avail.peerPieces p Bitmap.empty = t.avail.peerPieces := by
    rw [← hpieces, update_eq_self]
  refine ⟨?_, rfl, rfl, rfl, update_self _ _ _, rfl⟩
  have hnew := hclear (if t.haveInfo then t.avail.moves + 1 else t.avail.moves) t.order
  unfold record at hnew
  rw [hsame] at hnew
  exact hnew

end

theorem boolSliceToBitmap_lt {bf : List Bool} (h : i ∈ boolSliceToBitmap bf) : i < bf.length :=
  Bitmap.mem_range.mp (Bitmap.mem_filter.mp h).1

theorem knownPieces_lt (hinfo : t.haveInfo = true) {bf : List Bool}
    (h : i ∈ boolSliceToBitmap (t.knownPieces bf)) : i < t.numPieces := by
  have hlt := boolSliceToBitmap_lt h
  rw [knownPieces, if_pos hinfo, length_take] at hlt
  omega

theorem peerSentBitfield (h : Accounts late t) (hp : p ∈ t.avail.conns)
    (hopen : t.avail.closed p = false) (bf : List Bool) :
    Ends AccountsRight (Accounts late) (t.peerSentBitfield p bf) := by
  refine Ends.require (fun _ => ?_) fun _ => nofun
  have hrange := fun hinfo hlate => h.range hinfo p (mem_append_left _ hp) hlate
  dsimp only
  split_ifs with hall hsent
  · exact h.onPeerHasAllPieces hp hopen
  · refine (h.takeBackHaveAll hp hopen hsent).bind
      fun t₁ ⟨ht₁, hconns, hclosed, hpieces, hsent₁, hinfo⟩ => ?_
    have hnum : t₁.numPieces = t.numPieces := by
      unfold numPieces
      rw [hinfo]
    have hhave : t₁.haveInfo = t.haveInfo := by
      unfold haveInfo
      rw [hinfo]
    refine ht₁.changePieces (hconns ▸ hp) (hclosed ▸ hopen) hsent₁ _ ?_
    rw [hpieces, hnum, hhave]
    intro hknown hlate i hi
    rcases Bitmap.mem_xor.mp hi with ⟨hi, -⟩ | ⟨hi, -⟩
    · exact hrange hknown hlate i hi
    · exact knownPieces_lt hknown hi
  · refine h.changePieces hp hopen (by simpa using hsent) _ ?_
    intro hknown hlate i hi
    rcases Bitmap.mem_xor.mp hi with ⟨hi, -⟩ | ⟨hi, -⟩
    · exact hrange hknown hlate i hi
    · rcases Bitmap.mem_xor.mp hi with ⟨hi, -⟩ | ⟨hi, -⟩
      · exact knownPieces_lt hknown hi
      · exact hrange hknown hlate i hi

end Accounts

/-! ## New peers -/

/-- The pieces of a webseed, once the info is known. -/
def Torrent.webseedPieces (t : Torrent) (conforming : Bool) : Bitmap :=
  if conforming then Bitmap.range t.numPieces else Bitmap.empty

theorem Torrent.webseedPieces_lt (t : Torrent) {conforming : Bool}
    (h : i ∈ t.webseedPieces conforming) : i < t.numPieces := by
  unfold webseedPieces at h
  split_ifs at h
  · exact Bitmap.mem_range.mp h
  · exact absurd h (Bitmap.not_mem_empty i)

/-- The webseed has its pieces, but they are not counted yet. -/
def Torrent.stocked (t : Torrent) (p : Nat) (conforming : Bool) : Torrent :=
  { t with
    avail.peerPieces := update t.avail.peerPieces p (t.webseedPieces conforming) }

theorem webseedGotInfo_recounted (hS : ∀ i < t.numPieces, t.avail.relative i = S i) (p : Nat)
    (conforming : Bool) :
    Ends AccountsRight
      (Recounted (t.stocked p conforming)
        fun i => S i + (decide (i ∈ t.webseedPieces conforming)).toNat)
      (t.webseedGotInfo p conforming) :=
  Recounted.incPieces (t := t.stocked p conforming) (Recounted.refl hS) _

section Join

variable {isConn isConn' : Nat → Bool} {numPieces : Nat} {hasInfo : Bool}

/-- The tables of a peer that has just joined. -/
def Avail.join (a : Avail) (p : Nat) (conns webSeeds : List Nat) (pieces : Bitmap) : Avail :=
  { a with
    peerIds := p :: a.peerIds
    conns := conns
    webSeeds := webSeeds
    closed := update a.closed p false
    peerPieces := update a.peerPieces p pieces
    peerSentHaveAll := update a.peerSentHaveAll p false }

variable {conns webSeeds : List Nat} {pieces : Bitmap}

theorem sharers_join (h : AccountsOf isConn numPieces hasInfo late a) (hp : p ∉ a.peerIds)
    (hperm : (conns ++ webSeeds).Perm (p :: (a.conns ++ a.webSeeds))) (i : Nat) :
    (a.join p conns webSeeds pieces).sharers i = a.sharers i + (decide (i ∈ pieces)).toNat := by
  have hnot : p ∉ a.connsWithAllPieces := fun hmem =>
    hp (h.known p (mem_append_left _ (h.all p hmem).1))
  have hself : (a.join p conns webSeeds pieces).shares i p = decide (i ∈ pieces) := by
    simp [shares, join, hnot]
  have hother : (a.conns ++ a.webSeeds).countP ((a.join p conns webSeeds pieces).shares i) =
      (a.conns ++ a.webSeeds).countP (a.shares i) := by
    refine countP_congr fun q hq => ?_
    have hne : q ≠ p := fun heq => hp (heq ▸ h.known q hq)
    have hsame : (a.join p conns webSeeds pieces).shares i q = a.shares i q :=
      shares_congr (update_of_ne hne _ _) Iff.rfl (by simp [join, hne])
    rw [hsame]
  unfold sharers
  change (conns ++ webSeeds).countP _ = _
  rw [hperm.countP_eq, countP_cons, hself, hother]
  cases decide (i ∈ pieces) <;> simp

theorem AccountsOf.join (h : AccountsOf isConn numPieces hasInfo NoneLate a)
    (hp : p ∉ a.peerIds) (hroster : RosterOf isConn' conns webSeeds (p :: a.peerIds))
    (hkind : ∀ q ≠ p, isConn' q = isConn q) (hself : isConn' p = true → p ∈ conns)
    (hconns : ∀ q ≠ p, q ∈ conns ↔ q ∈ a.conns)
    (hweb : ∀ q ≠ p, q ∈ webSeeds ↔ q ∈ a.webSeeds)
    (hrange : hasInfo = true → ∀ i ∈ pieces, i < numPieces)
    (hearly : hasInfo = false → ∀ i, i ∉ pieces) {relative : Nat → Nat}
    (hcount : ∀ i < numPieces, relative i = (a.join p conns webSeeds pieces).sharers i) :
    AccountsOf isConn' numPieces hasInfo NoneLate
      { a.join p conns webSeeds pieces with relative := relative } where
  toRosterOf := hroster
  gone q hq hconn hnot := by
    have hne : q ≠ p := by
      rintro rfl
      exact hnot (hself hconn)
    have hknown : q ∈ a.peerIds := (mem_cons.mp hq).resolve_left hne
    have hclosed := h.gone q hknown ((hkind q hne).symm.trans hconn)
      fun hmem => hnot ((hconns q hne).mpr hmem)
    simpa [Avail.join, hne] using hclosed
  allNodup := h.allNodup
  all q hq := by
    obtain ⟨hconn, hclosed, hsent⟩ := h.all q hq
    have hne : q ≠ p := fun heq => hp (heq ▸ h.known q (mem_append_left _ hconn))
    exact ⟨(hconns q hne).mpr hconn, by simpa [Avail.join, hne] using hclosed,
      by simpa [Avail.join, hne] using hsent⟩
  haveAll q hq hclosed hsent := by
    have hne : q ≠ p := by
      rintro rfl
      simp [join] at hsent
    obtain ⟨hall, hnone⟩ := h.haveAll q ((hconns q hne).mp hq)
      (by simpa [Avail.join, hne] using hclosed) (by simpa [Avail.join, hne] using hsent)
    exact ⟨hall, by simpa [Avail.join, hne] using hnone⟩
  range hinfo q hq hlate i hi := by
    by_cases hne : q = p
    · subst hne
      exact hrange hinfo i (by simpa [join] using hi)
    · refine h.range hinfo q ?_ hlate i (by simpa [Avail.join, hne] using hi)
      rcases mem_append.mp hq with hq | hq
      · exact mem_append_left _ ((hconns q hne).mp hq)
      · exact mem_append_right _ ((hweb q hne).mp hq)
  early q hq hlate i hi := by
    by_cases hne : q = p
    · subst hne
      exact hearly (hlate.resolve_right id) i (by simpa [join] using hi)
    · exact h.early q ((hweb q hne).mp hq) hlate i (by simpa [Avail.join, hne] using hi)
  awake _ _ hlate := hlate.elim
  counted := hcount

end Join

namespace Accounts

theorem peerConnAdded (h : Accounts NoneLate t) (hp : p ∉ t.avail.peerIds)
    (fast transmission : Bool) (addr : Option (Nat × Nat)) :
    Accounts NoneLate (t.peerConnAdded p fast transmission addr) := by
  have hkind := fun q => newPeer_isConn t p (.conn fast transmission) addr 250 true (q := q)
  have hself : (t.newPeer p (.conn fast transmission) addr 250 true).isConn p = true := by
    simp [isConn, newPeer]
  have hjoin : Accounts NoneLate { t.newPeer p (.conn fast transmission) addr 250 true with
      avail.conns := p :: t.avail.conns } := by
    refine AccountsOf.join h hp (h.toRosterOf.addConn hp hkind hself) hkind
      (fun _ => mem_cons_self) (fun q hq => by simp [hq]) (fun _ _ => Iff.rfl)
      (fun _ i hi => absurd hi (Bitmap.not_mem_empty i)) (fun _ i => Bitmap.not_mem_empty i)
      fun i hi => ?_
    rw [sharers_join h hp (List.Perm.refl _) i]
    refine (h.counted i hi).trans ?_
    simp
  exact (accounts_reqsFree NoneLate).peerConnAdded hjoin

theorem addWebSeed (h : Accounts NoneLate t) (hp : p ∉ t.avail.peerIds) (conforming : Bool)
    (addr : Option (Nat × Nat)) :
    Ends AccountsRight (Accounts NoneLate) (t.addWebSeed p conforming addr) := by
  have hkind := fun q => newPeer_isConn t p (.webseed conforming) addr 128 false (q := q)
  have hself : (t.newPeer p (.webseed conforming) addr 128 false).isConn p = false := by
    simp [isConn, newPeer]
  -- the webseed with its pieces, once they have been counted
  have hjoin : ∀ (pieces : Bitmap) (relative : Nat → Nat)
      (order : Nat → Option PieceRequestOrderState),
      (t.haveInfo = true → ∀ i ∈ pieces, i < t.numPieces) →
      (t.haveInfo = false → ∀ i, i ∉ pieces) →
      (∀ i < t.numPieces, relative i = t.avail.sharers i + (decide (i ∈ pieces)).toNat) →
      Accounts NoneLate { t.newPeer p (.webseed conforming) addr 128 false with
        avail := { t.avail.join p t.avail.conns (p :: t.avail.webSeeds) pieces with
          relative := relative }
        order := order } := by
    intro pieces relative order hrange hearly hcount
    refine AccountsOf.join h hp (h.toRosterOf.addWebSeed hp hkind hself) hkind
      (fun hconn => ?_) (fun _ _ => Iff.rfl) (fun q hq => by simp [hq]) hrange hearly
      fun i hi => ?_
    · rw [hself] at hconn
      cases hconn
    · rw [sharers_join h hp perm_middle i]
      exact hcount i hi
  have hdo : Ends AccountsRight
      (fun t' => Accounts NoneLate { t' with avail.webSeeds := p :: t'.avail.webSeeds })
      (doIf t.haveInfo (t.newPeer p (.webseed conforming) addr 128 false)
        ((t.newPeer p (.webseed conforming) addr 128 false).webseedGotInfo p conforming)) := by
    refine Ends.doIf (fun hinfo => ?_) fun hinfo => ?_
    · refine (webseedGotInfo_recounted (t := t.newPeer p (.webseed conforming) addr 128 false)
        h.counted p conforming).imp ?_
      rintro _ ⟨relative, order, rfl, hcount⟩
      have hnew := hjoin (t.webseedPieces conforming) relative order
        (fun _ i hi => t.webseedPieces_lt hi)
        (fun hno => absurd (hno.symm.trans hinfo) Bool.false_ne_true) hcount
      have hsame : update
          (t.newPeer p (.webseed conforming) addr 128 false).avail.peerPieces p
            ((t.newPeer p (.webseed conforming) addr 128 false).webseedPieces conforming) =
          update t.avail.peerPieces p (t.webseedPieces conforming) :=
        update_idem _ _ _
      unfold stocked
      dsimp only
      rw [hsame]
      exact hnew
    · refine hjoin Bitmap.empty t.avail.relative t.order (fun hyes => absurd hyes hinfo)
        (fun _ i => Bitmap.not_mem_empty i) fun i hi => ?_
      refine (h.counted i hi).trans ?_
      simp
  exact hdo.bind fun _ ht' => ht'

theorem reorder (h : Accounts late t) {conns : List Nat} (hperm : conns.Perm t.avail.conns) :
    Accounts late { t with avail.conns := conns } :=
  { h with
    toRosterOf := h.toRosterOf.reorder hperm
    gone := fun q hq hconn hnot =>
      h.gone q hq hconn fun hmem => hnot (hperm.mem_iff.mpr hmem)
    all := fun q hq => by
      obtain ⟨hconn, hrest⟩ := h.all q hq
      exact ⟨hperm.mem_iff.mpr hconn, hrest⟩
    haveAll := fun q hq => h.haveAll q (hperm.mem_iff.mp hq)
    range := fun hinfo q hq => h.range hinfo q ((hperm.append_right _).mem_iff.mp hq)
    counted := fun i hi => (h.counted i hi).trans ((hperm.append_right _).countP_eq _).symm }

end Accounts

/-! ## Upkeep and the end -/

theorem accounts_order (h : Accounts late t) (i : Nat) :
    Ends AccountsRight (Accounts late) (t.updatePieceRequestOrder i) := by
  unfold updatePieceRequestOrder
  split_ifs
  · exact h
  · exact nofun
  · exact nofun
  · exact h

theorem accounts_plain (late : Nat → Prop) :
    Plain AccountsRight (fun _ => True) (Accounts late) where
  toAside := (accounts_reqsFree late).toAside
  index e he := by simp [AccountsRight, he]
  order _ h := accounts_order h _
  pendAll _ _ h := h
  complete _ _ h _ := h
  cancelRequest h r := (accounts_reqsFree late).unbooks.cancelRequest h r
  drop h hp _ := h.dropConnection (h.known _ (mem_append_left _ hp)) (h.conn _ hp)
  flags h _ _ _ _ _ := h

theorem sharers_of_closed (h : ∀ p ∈ a.conns ++ a.webSeeds, a.closed p = true) (i : Nat) :
    a.sharers i = 0 := by
  unfold sharers
  refine countP_eq_zero.mpr fun p hp => ?_
  simp [shares, h p hp]

theorem Accounts.assertZero (h : Accounts late t)
    (hzero : ∀ i < t.numPieces, t.avail.relative i = 0) :
    Ends AccountsRight (Accounts late) t.assertAllPiecesRelativeAvailabilityZero := by
  have hall : (range t.numPieces).all (fun i => decide (t.avail.relative i = 0)) = true := by
    rw [all_eq_true]
    intro i hi
    simpa using hzero i (mem_range.mp hi)
  rw [assertAllPiecesRelativeAvailabilityZero, if_pos hall]
  exact h

theorem Accounts.closeTorrent (h : Accounts NoneLate t) :
    Ends AccountsRight (Accounts NoneLate) t.closeTorrent := by
  unfold Torrent.closeTorrent
  split_ifs
  · exact h
  · have hloop : Ends AccountsRight (fun t' => Accounts NoneLate t' ∧
        ∀ p ∈ t'.iterPeers, t'.avail.closed p = true)
        (t.iterPeers.foldlM Torrent.close { t with closed := true }) := by
      -- the peers still to come are the only ones that may not be closed
      refine (Ends.foldlM_list (s := { t with closed := true })
        (I := fun l t' => Accounts NoneLate t' ∧ t'.iterPeers = t.iterPeers ∧
          (∀ p ∈ l, p ∈ t.iterPeers) ∧ ∀ p ∈ t.iterPeers, p ∉ l → t'.avail.closed p = true)
        ⟨h, rfl, fun _ hp => hp, fun p hp hnot => absurd hp hnot⟩ ?_).imp ?_
      · rintro p l t₁ ⟨ht₁, hpeers, hsub, hclosed⟩
        have hp : p ∈ t₁.iterPeers := hpeers ▸ hsub p mem_cons_self
        refine (ht₁.close hp fun hlate => hlate.elim).imp fun t₂ ⟨ht₂, hpeers₂, hclosed₂⟩ => ?_
        refine ⟨ht₂, hpeers₂.trans hpeers, fun q hq => hsub q (mem_cons_of_mem p hq), ?_⟩
        intro q hq hnot
        rw [hclosed₂]
        by_cases hqp : q = p
        · rw [hqp, update_self]
        · rw [update_of_ne hqp]
          refine hclosed q hq fun hmem => ?_
          rcases mem_cons.mp hmem with heq | hmem
          · exact hqp heq
          · exact hnot hmem
      · rintro t₁ ⟨ht₁, hpeers, -, hclosed⟩
        exact ⟨ht₁, fun p hp => hclosed p (hpeers ▸ hp) not_mem_nil⟩
    refine hloop.bind fun t₁ ⟨ht₁, hclosed⟩ => ?_
    have hzero : ∀ i < t₁.numPieces, t₁.avail.relative i = 0 := fun i hi =>
      (ht₁.counted i hi).trans (sharers_of_closed hclosed i)
    have hdelete : Accounts NoneLate t₁.deletePieceRequestOrder ∧
        ∀ i < t₁.deletePieceRequestOrder.numPieces,
          t₁.deletePieceRequestOrder.avail.relative i = 0 := by
      unfold deletePieceRequestOrder
      split_ifs
      · exact ⟨ht₁, hzero⟩
      · exact ⟨ht₁, hzero⟩
    exact hdelete.1.assertZero hdelete.2

end ReliableBT
