import ReliableBT.RequestStrategy.Order

/-!
# Which request is preferred (`requesting.go`)

`desiredPeerRequests.lessByValue` compares two requests for a peer: those that can be served while
the peer chokes us come first, then the urgent ones, those the peer has already, those nobody has,
and of those that others have the ones of the busiest peers, the latest first. What is left is
decided by the availability of the pieces, and by their place in the torrent or, unless they are
read ahead, in a random permutation.

Times are numbers of nanoseconds whose differences do not overflow, and the zero time is no time.

* `lessByValue_eq`: requests are compared by a key, and nothing panics.
* `lessByValue_of_stage_lt`: the stages of two requests decide if they differ.
* `request_preference`: so the preference is a strict weak order.
-/

open Option

namespace ReliableBT.RequestStrategy

/-- The panics of `lessByValue`. -/
inductive PreferencePanic where
  | divideByZero
  | indexOutOfRange
  /-- `expected equal` -/
  | expectedEqual
  /-- `rightPeer` is nil -/
  | nilPeer
  /-- `expected non-zero last requested times` -/
  | zeroTime
  deriving DecidableEq

/-- `requestState` -/
structure RequestState where
  peer : Option Nat
  when : Option ℤ

/-- `desiredPeerRequests`, with what it looks at in the torrent. -/
structure DesiredPeerRequests where
  multiless : Multiless
  pieceStates : List State
  /-- the peer the requests are for -/
  peer : Nat
  peerChoking : Bool
  peerAllowedFast : Nat → Bool
  chunksPerRegularPiece : Nat
  /-- `Torrent.requestState` -/
  requestState : Nat → RequestState
  /-- the number of requests of a peer -/
  cardinality : Nat → Nat
  pieceRequestOrder : List Nat

/-- `PiecePriorityReadahead` -/
def readahead : UInt8 := 3

namespace DesiredPeerRequests

variable (p : DesiredPeerRequests)

/-- The comparison of two requests by what can be served and by priority. -/
def lessUrgent (leftPieceIndex rightPieceIndex : Nat) (left right : State) : Computation :=
  (if p.peerChoking then
    [compare (!p.peerAllowedFast leftPieceIndex) (!p.peerAllowedFast rightPieceIndex)] else []) ++
    [compare (-(left.priority.toNat : ℤ)) (-(right.priority.toNat : ℤ))]

/-- The comparison by who has the requests. -/
def lessHeld (left right : RequestState) : Computation :=
  [compare (right.peer == some p.peer) (left.peer == some p.peer),
    compare right.peer.isNone left.peer.isNone]

/-- The comparison of two requests that other peers have, if any has. -/
def lessOwned (left right : RequestState) : Except PreferencePanic Computation :=
  match left.peer, right.peer with
  | none, _ => .ok []
  | some _, none => .error .nilPeer
  | some leftPeer, some rightPeer =>
    match left.when, right.when with
    | some leftLast, some rightLast =>
      .ok [compare (p.cardinality rightPeer) (p.cardinality leftPeer), compare rightLast leftLast]
    | _, _ => .error .zeroTime

/-- `lessByValue` -/
def lessByValue (leftRequest rightRequest : Nat) : Except PreferencePanic Bool :=
  if p.chunksPerRegularPiece = 0 then .error .divideByZero
  else
    let leftPieceIndex := leftRequest / p.chunksPerRegularPiece
    let rightPieceIndex := rightRequest / p.chunksPerRegularPiece
    match p.pieceStates[leftPieceIndex]?, p.pieceStates[rightPieceIndex]?,
      p.pieceRequestOrder[leftPieceIndex]?, p.pieceRequestOrder[rightPieceIndex]? with
    | some leftPiece, some rightPiece, some leftPlace, some rightPlace =>
      let ml := p.lessUrgent leftPieceIndex rightPieceIndex leftPiece rightPiece
      if p.multiless.ok ml then .ok (p.multiless.less ml)
      else if leftPiece.priority ≠ rightPiece.priority then .error .expectedEqual
      else
        let left := p.requestState leftRequest
        let right := p.requestState rightRequest
        let ml := ml ++ p.lessHeld left right
        if p.multiless.ok ml then .ok (p.multiless.less ml)
        else do
          let owned ← p.lessOwned left right
          return p.multiless.less (ml ++ owned ++ [compare leftPiece.availability
            rightPiece.availability, if leftPiece.priority = readahead then
              compare leftPieceIndex rightPieceIndex else compare leftPlace rightPlace])
    | _, _, _, _ => .error .indexOutOfRange

/-- The request indexes of the torrent's pieces. -/
def Valid (r : Nat) : Prop :=
  p.chunksPerRegularPiece ≠ 0 ∧ r / p.chunksPerRegularPiece < p.pieceStates.length ∧
    r / p.chunksPerRegularPiece < p.pieceRequestOrder.length

/-- The state of the piece of a request. -/
def piece (r : Nat) : State := (p.pieceStates[r / p.chunksPerRegularPiece]?).getD {}

/-- The place of the piece of a request. -/
def place (r : Nat) : Nat :=
  if (p.piece r).priority = readahead then r / p.chunksPerRegularPiece
  else (p.pieceRequestOrder[r / p.chunksPerRegularPiece]?).getD 0

/-- Why one request is preferred to another, up to who has them. -/
def urgency (r : Nat) : Bool ×ₗ ℤ :=
  toLex (p.peerChoking && !p.peerAllowedFast (r / p.chunksPerRegularPiece),
    -((p.piece r).priority.toNat : ℤ))

/-- Who has a request. -/
def holder (r : Nat) : Boolᵒᵈ ×ₗ Boolᵒᵈ :=
  toLex (.toDual ((p.requestState r).peer == some p.peer), .toDual (p.requestState r).peer.isNone)

/-- How busy its peer is, and when it was made. -/
def load (r : Nat) : Natᵒᵈ ×ₗ ℤᵒᵈ :=
  (p.requestState r).peer.elim (toLex (.toDual 0, .toDual 0)) fun q =>
    toLex (.toDual (p.cardinality q), .toDual ((p.requestState r).when.getD 0))

/-- The parts of the comparison that making other requests does not change. -/
def stage (r : Nat) : (Bool ×ₗ ℤ) ×ₗ (Boolᵒᵈ ×ₗ Boolᵒᵈ) := toLex (p.urgency r, p.holder r)

/-- What requests are compared by. -/
def key (r : Nat) : (Bool ×ₗ ℤ) ×ₗ (Boolᵒᵈ ×ₗ Boolᵒᵈ) ×ₗ (Natᵒᵈ ×ₗ ℤᵒᵈ) ×ₗ ℤ ×ₗ Nat :=
  toLex (p.urgency r, toLex (p.holder r, toLex (p.load r,
    toLex ((p.piece r).availability, p.place r))))

variable {p} {l r : Nat}

theorem lessOwned_eq (howned : ∀ s, (p.requestState s).peer.isSome → (p.requestState s).when.isSome)
    (h : p.holder l = p.holder r) :
    ∃ c, p.lessOwned (p.requestState l) (p.requestState r) = .ok c ∧
      c.result = compare (p.load l) (p.load r) := by
  have hnone : (p.requestState l).peer.isNone = (p.requestState r).peer.isNone :=
    congrArg (fun x : Boolᵒᵈ ×ₗ Boolᵒᵈ => OrderDual.ofDual (ofLex x).2) h
  have hl := howned l
  have hr := howned r
  unfold lessOwned load
  generalize p.requestState l = left at *
  generalize p.requestState r = right at *
  obtain ⟨lp, lw⟩ := left
  obtain ⟨rp, rw⟩ := right
  cases lp with
  | none =>
    cases rp with
    | none => exact ⟨[], rfl, rfl⟩
    | some _ => simp at hnone
  | some lp =>
    cases rp with
    | none => simp at hnone
    | some rp =>
      obtain ⟨lt, rfl⟩ := isSome_iff_exists.mp (hl rfl)
      obtain ⟨rt, rfl⟩ := isSome_iff_exists.mp (hr rfl)
      refine ⟨_, rfl, ?_⟩
      simp only [Computation.result_cons, Computation.result_nil, Ordering.then_eq]
      rfl

theorem Valid.lookups (h : p.Valid r) :
    p.pieceStates[r / p.chunksPerRegularPiece]? = some (p.piece r) ∧
    ∃ rank, p.pieceRequestOrder[r / p.chunksPerRegularPiece]? = some rank ∧
      p.place r = if (p.piece r).priority = readahead then r / p.chunksPerRegularPiece
        else rank := by
  refine ⟨?_, _, List.getElem?_eq_getElem h.2.2, ?_⟩
  · rw [piece, List.getElem?_eq_getElem h.2.1, getD_some]
  · rw [place, List.getElem?_eq_getElem h.2.2, getD_some]

theorem result_lessUrgent : (p.lessUrgent (l / p.chunksPerRegularPiece)
    (r / p.chunksPerRegularPiece) (p.piece l) (p.piece r)).result =
      compare (p.urgency l) (p.urgency r) := by
  change _ = (compare (_ && _) (_ && _)).then _
  rw [lessUrgent, Computation.result_append]
  cases p.peerChoking with
  | false => exact Ordering.then_eq
  | true => exact congrArg₂ Ordering.then (Ordering.then_eq) (Ordering.then_eq)

theorem result_lessHeld : (p.lessHeld (p.requestState l) (p.requestState r)).result =
    compare (p.holder l) (p.holder r) :=
  congrArg (Ordering.then _) (Ordering.then_eq)

theorem lessByValue_eq (hl : p.Valid l) (hr : p.Valid r)
    (howned : ∀ s, (p.requestState s).peer.isSome → (p.requestState s).when.isSome) :
    p.lessByValue l r = .ok (decide (p.key l < p.key r)) := by
  obtain ⟨hpl, lrank, hrl, hplacel⟩ := hl.lookups
  obtain ⟨hpr, rrank, hrr, hplacer⟩ := hr.lookups
  have hkey : decide (p.key l < p.key r) = ((compare (p.urgency l) (p.urgency r)).then
      ((compare (p.holder l) (p.holder r)).then ((compare (p.load l) (p.load r)).then
        ((compare (p.piece l).availability (p.piece r).availability).then
          (compare (p.place l) (p.place r))))) == .lt) := by
    change _ = (compare (p.key l) (p.key r) == .lt)
    rw [Bool.eq_iff_iff, decide_eq_true_eq, beq_iff_eq, compare_lt_iff_lt]
  rw [hkey, lessByValue, if_neg hl.1]
  dsimp only
  rw [hpl, hpr, hrl, hrr]
  dsimp only
  simp only [Multiless.ok_eq, Multiless.less_eq, Computation.result_append, result_lessUrgent,
    result_lessHeld]
  cases hurgency : compare (p.urgency l) (p.urgency r) with
  | lt => rfl
  | gt => rfl
  | eq =>
    have hprio : (p.piece l).priority = (p.piece r).priority := by
      have h := congrArg (fun x => (ofLex x).2) (compare_eq_iff_eq.mp hurgency)
      exact UInt8.toNat_inj.mp (Int.ofNat_inj.mp (Int.neg_inj.mp h))
    rw [if_neg (by decide), if_neg (not_not.mpr hprio)]
    cases hholder : compare (p.holder l) (p.holder r) with
    | lt => rfl
    | gt => rfl
    | eq =>
      obtain ⟨c, hc, hload⟩ := lessOwned_eq howned (compare_eq_iff_eq.mp hholder)
      rw [if_neg (by decide), hc, hplacel, hplacer, ← hprio, ← hload, apply_ite₂ compare]
      simp only [Computation.result_cons, Computation.result_nil, Ordering.then_eq]
      rfl

theorem lessByValue_of_stage_lt (hl : p.Valid l) (hr : p.Valid r)
    (howned : ∀ s, (p.requestState s).peer.isSome → (p.requestState s).when.isSome)
    (h : p.stage l < p.stage r) : p.lessByValue l r = .ok true := by
  rw [lessByValue_eq hl hr howned, Except.ok.injEq, decide_eq_true_eq, key, key]
  rcases Prod.Lex.lt_iff.mp h with h | ⟨heq, h⟩
  · exact Prod.Lex.lt_iff.mpr (.inl h)
  · exact Prod.Lex.lt_iff.mpr (.inr ⟨heq, Prod.Lex.lt_iff.mpr (.inl h)⟩)

end DesiredPeerRequests

/-- **The preference is a strict weak order** of the requests: it is irreflexive and transitive,
incomparability is transitive, and nothing panics. -/
theorem request_preference (p : DesiredPeerRequests)
    (howned : ∀ s, (p.requestState s).peer.isSome → (p.requestState s).when.isSome) :
    (∀ a b, p.Valid a → p.Valid b → ∃ less, p.lessByValue a b = .ok less) ∧
    (∀ a, p.Valid a → p.lessByValue a a = .ok false) ∧
    ∀ a b c, p.Valid a → p.Valid b → p.Valid c →
      (p.lessByValue a b = .ok true → p.lessByValue b c = .ok true → p.lessByValue a c = .ok true) ∧
      (p.lessByValue a b = .ok false → p.lessByValue b a = .ok false →
        p.lessByValue b c = .ok false → p.lessByValue c b = .ok false →
          p.lessByValue a c = .ok false ∧ p.lessByValue c a = .ok false) := by
  have heq : ∀ {a b}, p.Valid a → p.Valid b →
      p.lessByValue a b = .ok (decide (p.key a < p.key b)) :=
    fun ha hb => DesiredPeerRequests.lessByValue_eq ha hb howned
  refine ⟨fun a b ha hb => ⟨_, heq ha hb⟩, fun a ha => ?_, fun a b c ha hb hc => ?_⟩
  · rw [heq ha ha, decide_eq_false (lt_irrefl _)]
  · rw [heq ha hb, heq hb ha, heq hb hc, heq hc hb, heq ha hc, heq hc ha]
    simp only [Except.ok.injEq, decide_eq_true_eq, decide_eq_false_iff_not, not_lt]
    exact ⟨lt_trans, fun hba hab hcb hbc => ⟨hcb.trans hba, hab.trans hbc⟩⟩

/-- One request of two is made by another peer. -/
def exampleRequests : DesiredPeerRequests where
  multiless := .ordering
  pieceStates := [{}]
  peer := 1
  peerChoking := true
  peerAllowedFast := fun _ => false
  chunksPerRegularPiece := 2
  requestState := fun r => if r = 0 then ⟨some 2, some 5⟩ else ⟨none, none⟩
  cardinality := fun _ => 1
  pieceRequestOrder := [0]

theorem request_preference_exampleRequests :
    exampleRequests.lessByValue 1 0 = .ok true ∧ exampleRequests.lessByValue 0 0 = .ok false := by
  refine ⟨by decide, (request_preference exampleRequests fun s => ?_).2.1 0 ⟨?_, ?_, ?_⟩⟩
  · unfold exampleRequests
    dsimp only
    split <;> simp
  · decide
  · decide
  · decide

end ReliableBT.RequestStrategy
