import ReliableBT.Torrent.DataFree

/-!
# The bounds of the upload queue (`onReadRequest`, `choke`)

`onReadRequest` queues a request while there are fewer than `localClientReqq` of them, for a piece
that we have and after `chunkOverflowsPiece`, which adds `begin` and `length` in 32 bits and has a
second test for when that wraps. `choke` empties the queue of a peer without the fast extension, and
nothing is queued for a choked peer. Everything else takes requests off the queue; `Serves` says so
once for all functions of the model, and `Served` is what it keeps.

* `le_of_not_overflows`: what passes `chunkOverflowsPiece` is within the piece, as natural numbers.
* `upload_queue_bounded`: in every state of every run the queue of every peer is within its bounds.
-/

namespace ReliableBT

open Torrent List

variable {t : Torrent} {p : Nat}

/-- The second test of `chunkOverflowsPiece` is about when the first one wraps. -/
theorem le_of_not_overflows {begin length pieceLength : Nat} (hlength : length < 2 ^ 32)
    (h : chunkOverflowsPiece begin length pieceLength = false) : begin + length ≤ pieceLength := by
  simp only [chunkOverflowsPiece, Bool.or_eq_false_iff, decide_eq_false_iff_not, not_lt] at h
  obtain ⟨hsum, hbegin⟩ := h
  rwa [u32_of_lt (by omega)] at hsum

/-- A peer's queue is within its bounds. -/
structure Served (info : Option Info) (fast choking : Bool) (requests : List Request) : Prop where
  length : requests.length ≤ localClientReqq
  within : ∀ r ∈ requests, r.begin + r.length ≤ (info.map (·.metaPieceLength r.index)).getD 0
  noInfo : info = none → requests = []
  choked : fast = false → choking = true → requests = []

theorem Served.nil (info : Option Info) (fast choking : Bool) : Served info fast choking [] :=
  ⟨Nat.zero_le _, fun _ hr => absurd hr not_mem_nil, fun _ => rfl, fun _ _ => rfl⟩

/-- The bounds of the peer `p`. -/
def Torrent.ServedTo (t : Torrent) (p : Nat) : Prop :=
  Served t.info (t.fastEnabled p) (t.up.choking p) (t.up.peerRequests p)

theorem pieceLength_le_metaPieceLength (t : Torrent) (i : Nat) :
    t.pieceLength i ≤ t.metaPieceLength i := by
  unfold pieceLength metaPieceLength
  cases t.info with
  | none => exact Nat.le_refl 0
  | some info => exact Info.pieceLen_le_metaPieceLength i

theorem Torrent.Servable.within {r : Request} (h : t.Servable r) :
    r.begin + r.length ≤ t.metaPieceLength r.index := by
  obtain ⟨-, -, hlength, hfits⟩ := h
  exact (le_of_not_overflows hlength hfits).trans (pieceLength_le_metaPieceLength t r.index)

theorem Torrent.ServedTo.serves (h : t.ServedTo p) {choking : Bool} {requests : List Request}
    (hserves : t.ServesTo p choking requests) :
    Served t.info (t.fastEnabled p) choking requests where
  length := hserves.length.elim (fun hle => hle.trans h.length) id
  within r hr := (hserves.queued r hr).elim (h.within r) Servable.within
  noInfo hnone := by
    refine eq_nil_iff_forall_not_mem.mpr fun r hr => ?_
    rcases hserves.queued r hr with hold | hnew
    · rw [h.noInfo hnone] at hold
      exact not_mem_nil hold
    · have hinfo := hnew.1
      rw [haveInfo, hnone] at hinfo
      cases hinfo
  choked hfast hchoke := by
    refine (hserves.choking hfast hchoke).elim id ?_
    rintro ⟨hold, hle⟩
    rw [h.choked hfast hold] at hle
    exact length_eq_zero_iff.mp (Nat.le_zero.mp hle)

/-! ## All steps -/

theorem served_reqsFree : ReqsFree (fun _ => True) fun t => ∀ p, t.ServedTo p :=
  ⟨⟨fun h _ _ => h, fun h _ _ => h, fun h _ hserves p => (h p).serves (hserves p)⟩,
    fun _ _ => trivial, fun h _ => h⟩

theorem served_aboutRequests :
    AboutRequests (fun _ => True) (fun _ _ => True) fun t => ∀ p, t.ServedTo p := by
  refine RequestsOnly.aboutRequests (.of_frame served_reqsFree ?_ ?_) served_reqsFree
    (fun _ _ => trivial) ?_
  · intro t t' h _ hinfo hkind hup p
    have hp := h p
    unfold ServedTo fastEnabled at hp ⊢
    rwa [hinfo, hkind, hup]
  · -- a new peer is choked and has not asked for anything
    intro t h p kind addr n b q
    have hq := h q
    unfold ServedTo fastEnabled newPeer at *
    by_cases hqp : q = p
    · subst hqp
      simpa using Served.nil ..
    · simpa [Function.update_of_ne hqp] using hq
  · -- nothing is queued before the info is known
    intro t info h hinfo _ p
    change Served (some info) (t.fastEnabled p) (t.up.choking p) (t.up.peerRequests p)
    rw [(h p).noInfo hinfo]
    exact .nil ..

/-- **The upload queue is bounded** in every state that a run reaches: a peer has at most
`localClientReqq` requests queued, each within its piece, and none if we choke it and it does not
have the fast extension. -/
theorem upload_queue_bounded (cfg : Config) (storage : Storage) (events : List Event) :
    Gives (fun t => ∀ p, (t.up.peerRequests p).length ≤ localClientReqq ∧
        (∀ r ∈ t.up.peerRequests p, r.index < t.numPieces ∧
          r.begin + r.length ≤ t.metaPieceLength r.index) ∧
        (t.fastEnabled p = false → t.up.choking p = true → t.up.peerRequests p = []))
      (run step (init cfg storage) events) := by
  have hinit : ∀ p, (init cfg storage).ServedTo p := fun p => .nil ..
  have hrun := served_aboutRequests.aboutPeers.keeps.run hinit
    (Meets.of_forall (fun _ _ => trivial) events)
  refine hrun.imp fun t ⟨hserved, hground⟩ p => ⟨(hserved p).length, fun r hr => ?_, ?_⟩
  · exact ⟨hground.asked p r hr, (hserved p).within r hr⟩
  · exact (hserved p).choked

end ReliableBT
