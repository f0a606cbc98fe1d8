import ReliableBT.Torrent.SetInfo

/-!
# Who is told of the info (`t.go`, `torrent.go`)

`GotInfo` returns the channel that `onSetInfo` closes. `invalidateMetadata`, which cleans up after a
failed completion of the metadata, makes a new channel, although the old one has not been closed:
whoever has it waits for good.

* `got_info_fires_iff`: once the info is set, all channels that `GotInfo` has returned are closed
  **iff** no completion of the metadata failed after a call of `GotInfo`. A `SetInfoBytes` that
  fails does no harm.
* `Channels.step`: no channel is closed twice.
-/

namespace ReliableBT.GotInfo

open Metadata (ExtendedMetadataRequestMsg)

variable {σ : Type}

variable {t t' : Torrent σ} {dec : Decoding} {opener : Opener σ}

/-- The channel is closed when the info is set, and no other is; `GotInfo` has returned channels
that were made. -/
structure Channels (t : Torrent σ) : Prop where
  closed : ∀ c, c ∈ t.closed ↔ t.info.isSome = true ∧ c = t.gotMetainfoC
  returned : ∀ c ∈ t.returned, c ≤ t.gotMetainfoC

/-- A block of the metadata is saved, and completing the metadata with it fails. -/
def completionFails (dec : Decoding) (opener : Opener σ) (t : Torrent σ) (p : Nat)
    (d : ExtendedMetadataRequestMsg) (payload : Slice UInt8) : Bool :=
  match t.lift (t.metadata.receiveMetadataData p d payload) with
  | .ok (none, t₁) =>
    match t₁.maybeCompleteMetadata dec opener with
    | .ok (some _, _) => true
    | _ => false
  | _ => false

/-- The event is a block of the metadata with which completing the metadata fails. -/
def failsCompletion (dec : Decoding) (t : Torrent σ) : Event σ → Bool
  | .message p (some d) payload opener =>
    decide (d.type = Metadata.dataMetadataExtensionMsgType) &&
      completionFails dec opener t p d payload
  | _ => false

/-- No completion of the metadata fails after a call of `GotInfo`. -/
def NoneLost (dec : Decoding) (t : Torrent σ) (e : Event σ) : Prop :=
  t.returned = [] ∨ failsCompletion dec t e = false

instance (dec : Decoding) (t : Torrent σ) (e : Event σ) : Decidable (NoneLost dec t e) :=
  inferInstanceAs (Decidable (_ ∨ _))

/-- The channel is the same, and so is what `GotInfo` has returned. -/
def SameChannel (t t' : Torrent σ) : Prop :=
  t'.gotMetainfoC = t.gotMetainfoC ∧ t'.returned = t.returned

/-- A new channel was made. -/
def NewChannel (t t' : Torrent σ) : Prop :=
  t'.gotMetainfoC = t.gotMetainfoC + 1 ∧ t'.returned = t.returned

/-- A channel that `GotInfo` has returned was replaced. -/
def Lost (t : Torrent σ) : Prop := ∃ c ∈ t.returned, c ≠ t.gotMetainfoC

section

variable (h : Channels t)
include h

theorem Channels.open (hnone : t.info = none) (c : Nat) : c ∉ t.closed :=
  fun hc => by simpa [hnone] using ((h.closed c).mp hc).1

theorem Channels.setInfoBytesLocked (b : Slice UInt8) :
    Ends (· ≠ .closeOfClosedChannel)
      (fun r => Channels r.2 ∧ SameChannel t r.2 ∧ (r.1.isSome = true → r.2.info = t.info))
      (t.setInfoBytesLocked dec opener b) := by
  rcases setInfoBytesLocked_cases t dec opener b with ⟨-, heq⟩ | ⟨-, heq⟩ | ⟨-, -, heq⟩ |
    ⟨-, -, err, -, -, heq⟩ | ⟨hnone, -, info, storage, heq⟩
  · rw [heq]
    exact ⟨h, ⟨rfl, rfl⟩, fun _ => rfl⟩
  · rw [heq]
    exact ⟨h, ⟨rfl, rfl⟩, fun _ => rfl⟩
  · rw [heq]
    exact ⟨⟨h.closed, h.returned⟩, ⟨rfl, rfl⟩, nofun⟩
  · rw [heq]
    exact ⟨⟨h.closed, h.returned⟩, ⟨rfl, rfl⟩, fun _ => rfl⟩
  · -- the info was not set, so the channel is open
    have hclose : Torrent.onSetInfo { t.withBytes b with storage := storage, info := some info } =
        .ok { t.withBytes b with
          storage := storage, info := some info, closed := t.gotMetainfoC :: t.closed } :=
      if_neg (h.open hnone _)
    rw [heq, hclose]
    refine ⟨⟨fun c => ?_, h.returned⟩, ⟨rfl, rfl⟩, nofun⟩
    change c ∈ t.gotMetainfoC :: t.closed ↔ true = true ∧ c = t.gotMetainfoC
    simp [h.open hnone c]

theorem Channels.maybeCompleteMetadata (dec : Decoding) (opener : Opener σ) :
    Ends (· ≠ .closeOfClosedChannel)
      (fun r => Channels r.2 ∧ if r.1.isSome then NewChannel t r.2 else SameChannel t r.2)
      (t.maybeCompleteMetadata dec opener) := by
  unfold Torrent.maybeCompleteMetadata
  split_ifs with hknown
  · exact ⟨h, rfl, rfl⟩
  · exact ⟨h, rfl, rfl⟩
  · have hnone : t.info = none := by simpa using hknown
    refine (h.setInfoBytesLocked t.metadataBytes).bind fun ⟨err, t₁⟩ ⟨h₁, hsame, hinfo⟩ => ?_
    cases err with
    | none => exact ⟨h₁, hsame⟩
    | some err =>
      have hopen := h₁.open ((hinfo rfl).trans hnone)
      refine ⟨⟨fun c => ?_, fun c hc => ?_⟩, ?_, hsame.2⟩
      · exact ⟨fun hc => absurd hc (hopen c), fun hc => absurd hc.1 Bool.false_ne_true⟩
      · exact (h₁.returned c hc).trans (Nat.le_succ _)
      · exact congrArg (· + 1) hsame.1

theorem Channels.lift (x : Except Fault (Option Metadata.Error × Metadata.Torrent)) :
    Ends (· ≠ .closeOfClosedChannel) (fun r => Channels r.2 ∧ SameChannel t r.2) (t.lift x) := by
  cases x with
  | error f => exact nofun
  | ok r => exact ⟨⟨h.closed, h.returned⟩, rfl, rfl⟩

theorem Channels.gotMetadataData (p : Nat) (d : ExtendedMetadataRequestMsg)
    (payload : Slice UInt8) :
    Ends (· ≠ .closeOfClosedChannel)
      (fun r => Channels r.2 ∧
        (completionFails dec opener t p d payload = true → NewChannel t r.2) ∧
        (completionFails dec opener t p d payload = false → SameChannel t r.2))
      (t.gotMetadataData dec opener p d payload) := by
  have hlift := h.lift (t.metadata.receiveMetadataData p d payload)
  unfold Torrent.gotMetadataData completionFails
  cases hx : t.lift (t.metadata.receiveMetadataData p d payload) with
  | error stop =>
    rw [hx] at hlift
    exact hlift
  | ok r =>
    obtain ⟨err, t₁⟩ := r
    rw [hx] at hlift
    obtain ⟨h₁, hchannel, hreturned⟩ := hlift
    cases err with
    | some err => exact ⟨h₁, nofun, fun _ => ⟨hchannel, hreturned⟩⟩
    | none =>
      have hmaybe := h₁.maybeCompleteMetadata dec opener
      cases hy : t₁.maybeCompleteMetadata dec opener with
      | error stop =>
        rw [hy] at hmaybe
        simpa [bind, Except.bind, hy] using hmaybe
      | ok r =>
        obtain ⟨err, t₂⟩ := r
        rw [hy] at hmaybe
        simp only [bind, Except.bind, Option.isSome_none, Bool.false_eq_true, if_false, hy]
        obtain ⟨h₂, hcase⟩ := hmaybe
        cases err with
        | none =>
          exact ⟨h₂, nofun, fun _ => ⟨hcase.1.trans hchannel, hcase.2.trans hreturned⟩⟩
        | some err =>
          refine ⟨h₂, fun _ => ⟨hcase.1.trans ?_, hcase.2.trans hreturned⟩, nofun⟩
          rw [hchannel]

theorem Channels.step (dec : Decoding) (e : Event σ) :
    Ends (· ≠ .closeOfClosedChannel)
      (fun t' => Channels t' ∧ (failsCompletion dec t e = true → NewChannel t t') ∧
        (failsCompletion dec t e = false → SameChannel t t' ∨ SameChannel t.gotInfo t'))
      (GotInfo.step dec t e) := by
  cases e with
  | gotInfo =>
    refine ⟨⟨h.closed, fun c hc => ?_⟩, nofun, fun _ => .inr ⟨rfl, rfl⟩⟩
    exact (List.mem_cons.mp hc).elim Nat.le_of_eq (h.returned c)
  | addConn p => exact ⟨⟨h.closed, h.returned⟩, nofun, fun _ => .inl ⟨rfl, rfl⟩⟩
  | deleteConn p => exact ⟨⟨h.closed, h.returned⟩, nofun, fun _ => .inl ⟨rfl, rfl⟩⟩
  | handshake p utMetadata size rand =>
    exact Ends.map ((h.lift _).imp fun _ h' => ⟨h'.1, nofun, fun _ => .inl h'.2⟩)
  | message p d payload opener =>
    refine Ends.map ?_
    unfold Torrent.gotMetadataExtensionMsg
    cases d with
    | none => exact ⟨h, nofun, fun _ => .inl ⟨rfl, rfl⟩⟩
    | some d =>
      dsimp only
      split_ifs with hdata
      · refine (h.gotMetadataData p d payload).imp fun r h' => ?_
        simp only [failsCompletion, hdata, decide_true, Bool.true_and]
        exact ⟨h'.1, h'.2.1, fun hok => .inl (h'.2.2 hok)⟩
      · refine (h.lift _).imp fun _ h' => ?_
        simp only [failsCompletion, hdata, decide_false, Bool.false_and]
        exact ⟨h'.1, nofun, fun _ => .inl h'.2⟩
      · simp only [failsCompletion, hdata, decide_false, Bool.false_and]
        exact ⟨h, nofun, fun _ => .inl ⟨rfl, rfl⟩⟩
      · simp only [failsCompletion, hdata, decide_false, Bool.false_and]
        exact ⟨h, nofun, fun _ => .inl ⟨rfl, rfl⟩⟩
  | setInfoBytes b opener =>
    exact Ends.map ((h.setInfoBytesLocked b).imp fun _ h' => ⟨h'.1, nofun, fun _ => .inl h'.2.1⟩)

/-- A channel that was returned is lost where a completion fails, and nowhere else. -/
theorem lost_step {e : Event σ} (hstep : step dec t e = .ok t') :
    Channels t' ∧ (¬ Lost t' ↔ ¬ Lost t ∧ NoneLost dec t e) := by
  have hchannels := h.step dec e
  rw [hstep] at hchannels
  obtain ⟨h', hnew, hsame⟩ := hchannels
  refine ⟨h', ?_⟩
  unfold NoneLost Lost
  cases hfails : failsCompletion dec t e with
  | true =>
    obtain ⟨hchannel, hreturned⟩ := hnew hfails
    rw [hchannel, hreturned]
    constructor
    · intro hkept
      have hempty : t.returned = [] := List.eq_nil_iff_forall_not_mem.mpr fun c hc =>
        hkept ⟨c, hc, by have := h.returned c hc; omega⟩
      exact ⟨fun ⟨c, hc, _⟩ => by simp [hempty] at hc, .inl hempty⟩
    · rintro ⟨-, hempty | hnot⟩ ⟨c, hc, -⟩
      · simp [hempty] at hc
      · cases hnot
  | false =>
    have hlost : (∃ c ∈ t'.returned, c ≠ t'.gotMetainfoC) ↔
        ∃ c ∈ t.returned, c ≠ t.gotMetainfoC := by
      rcases hsame hfails with ⟨hchannel, hreturned⟩ | ⟨hchannel, hreturned⟩
      · rw [hchannel, hreturned]
      · rw [hchannel, hreturned]
        simp [Torrent.gotInfo]
    rw [hlost]
    exact ⟨fun hkept => ⟨hkept, .inr rfl⟩, And.left⟩

end

theorem lost_run {events : List (Event σ)} (h : Channels t)
    (hrun : run (step dec) t events = .ok t') :
    Channels t' ∧ (¬ Lost t' ↔ ¬ Lost t ∧ Meets (step dec) (NoneLost dec) t events) := by
  induction events generalizing t with
  | nil =>
    cases hrun
    exact ⟨h, (and_iff_left trivial).symm⟩
  | cons e events ih =>
    rw [run, List.foldlM_cons] at hrun
    cases he : step dec t e with
    | error stop =>
      rw [he] at hrun
      cases hrun
    | ok t₁ =>
      rw [he] at hrun
      obtain ⟨h₁, hone⟩ := lost_step h he
      obtain ⟨h', hrest⟩ := ih h₁ hrun
      refine ⟨h', ?_⟩
      rw [hrest, hone, Meets]
      constructor
      · rintro ⟨⟨hkept, hnone⟩, hmeets⟩
        refine ⟨hkept, hnone, fun t₂ ht₂ => ?_⟩
        cases he.symm.trans ht₂
        exact hmeets
      · rintro ⟨hkept, hnone, hmeets⟩
        exact ⟨⟨hkept, hnone⟩, hmeets t₁ he⟩

theorem channels_init : Channels (σ := σ) .init :=
  ⟨fun c => by simp [Torrent.init], fun _ hc => absurd hc List.not_mem_nil⟩

/-- **When `GotInfo` fires.** Once the info is set, every channel that `GotInfo` ever returned is
closed **iff** no completion of the metadata failed after a call of `GotInfo`. -/
theorem got_info_fires_iff (dec : Decoding) (events : List (Event σ)) (t : Torrent σ)
    (hrun : run (step dec) .init events = .ok t) (hinfo : t.info.isSome = true) :
    (∀ c ∈ t.returned, c ∈ t.closed) ↔ Meets (step dec) (NoneLost dec) .init events := by
  obtain ⟨h, hlost⟩ := lost_run channels_init hrun
  have hfresh : ¬ Lost (σ := σ) .init := fun ⟨_, hc, _⟩ => absurd hc List.not_mem_nil
  have hclosed : (∀ c ∈ t.returned, c ∈ t.closed) ↔ ¬ Lost t := by
    unfold Lost
    push Not
    refine forall₂_congr fun c _ => ?_
    rw [h.closed, hinfo]
    exact and_iff_right rfl
  rw [hclosed, hlost]
  exact and_iff_right hfresh

/-- **A channel that is never closed.** `GotInfo` is called, a corrupt block completes the metadata,
which fails, and `SetInfoBytes` then succeeds. -/
theorem got_info_lost :
    Reaches (fun t => t.info.isSome = true ∧ 0 ∈ t.returned ∧ 0 ∉ t.closed)
      (run (step byteDecoding) .init (.gotInfo :: asked ++
        [.message 1 (some block) ⟨[0], by decide⟩ none, .setInfoBytes ⟨[1], by decide⟩ none])) := by
  decide

theorem length_byte (b : UInt8) : [b].length ≤ maxAlloc := by
  rw [List.length_singleton]
  decide

/-- `GotInfo` is called after the corrupt block has arrived, and again when the info is set. -/
def calledAfter : List (Event Unit) :=
  let byte (b : UInt8) : Slice UInt8 := ⟨[b], length_byte b⟩
  asked ++ [.message 1 (some block) (byte 0) none, .gotInfo, .setInfoBytes (byte 1) none, .gotInfo]

theorem calledAfter_fires :
    Reaches (fun t => t.info.isSome = true ∧ t.returned ≠ [] ∧ ∀ c ∈ t.returned, c ∈ t.closed)
      (run (step byteDecoding) .init calledAfter) := by
  have hrun : Reaches (fun t => t.info.isSome = true ∧ t.returned ≠ [])
      (run (step byteDecoding) .init calledAfter) := by decide
  cases h : run (step byteDecoding) .init calledAfter with
  | error stop =>
    rw [h] at hrun
    exact hrun
  | ok t =>
    rw [h] at hrun
    exact ⟨hrun.1, hrun.2, (got_info_fires_iff byteDecoding calledAfter t h hrun.1).mpr (by decide)⟩

end ReliableBT.GotInfo
