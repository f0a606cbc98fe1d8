import ReliableBT.Torrent.WriteBuffer
import ReliableBT.Torrent.Ownership

/-!
# The limit on outstanding requests (`applyRequestState`, `updateRequests`)

`applyRequestState` insists that the peer has no requests left, unless the timer asked for the
update, and the timer is disabled. Who asks for an update checks that the peer is low on requests;
but the update comes later, and what has happened in between must not have left a request.

* `AsksWhenLow`: a peer for which an update is asked for has neither requests nor cancels that are
  not acknowledged. A cancel needs a request, so it stays like that until the update.
* `applyRequestState_limit`: an update ends within `nominalMaxRequests`, which it does not change on
  its way: it takes requests from other peers only.
* `request_limit`: both, in every run.
-/

namespace ReliableBT

open Torrent Function

/-- All panics but the one for requests left over. -/
def NoneLeft (e : Panic) : Prop := e ≠ .existingRequests

/-- An update is asked for only of peers that are low on requests, but for the one that is being
updated. -/
def AsksWhenLow (updating : Option Nat) (t : Torrent) : Prop :=
  ∀ p, updating ≠ some p → (t.ctl.needRequestUpdate p).isSome → t.isLowOnRequests p = true

variable {t : Torrent} {p : Nat} {updating : Option Nat}

theorem isLowOnRequests_iff :
    t.isLowOnRequests p = true ↔ (∀ r, r ∉ t.reqs.requests p) ∧ ∀ r, r ∉ t.reqs.cancelled p := by
  rw [isLowOnRequests, Bool.and_eq_true, OrderedBitmap.isEmpty_iff, Bitmap.isEmpty_iff]

theorem isLowOnRequests_of_subset {t' : Torrent} (h : t.isLowOnRequests p = true)
    (hr : ∀ r ∈ t'.reqs.requests p, r ∈ t.reqs.requests p)
    (hc : ∀ r ∈ t'.reqs.cancelled p, r ∈ t.reqs.cancelled p) : t'.isLowOnRequests p = true := by
  rw [isLowOnRequests_iff] at h ⊢
  exact ⟨fun r hr' => h.1 r (hr r hr'), fun r hc' => h.2 r (hc r hc')⟩

/-- Giving up requests leaves peers low on requests. The one step that could not is a cancel, but it
is of a request that is there. -/
theorem asksWhenLow_unbooks (updating : Option Nat) : Unbooks NoneLeft (AsksWhenLow updating) where
  ctl {t} h c hc p hp hneed := by
    rcases hc.need p with heq | hnone | hlow
    · exact h p hp (heq ▸ hneed)
    · exact absurd hneed (by simp [hnone])
    · exact hlow
  request e he := by rintro rfl; cases he
  withdrawn h _ p hp hneed :=
    isLowOnRequests_of_subset (h p hp hneed) (fun _ hr => (mem_update_remove.mp hr).1)
      fun _ hc => hc
  cancelled {t q r} h hr _ p hp hneed := by
    have hlow := h p hp hneed
    have hne : p ≠ q := by
      rintro rfl
      exact (isLowOnRequests_iff.mp hlow).1 r hr
    exact isLowOnRequests_of_subset hlow (fun _ hr' => (mem_update_remove.mp hr').1)
      fun _ hc => (mem_update_cancel.mp hc).resolve_right fun heq => hne heq.1
  acknowledged h p hp hneed :=
    isLowOnRequests_of_subset (h p hp hneed) (fun _ hr => hr)
      fun _ hc => (mem_update_uncancel.mp hc).1
  unexpected h := h

/-! ## An update -/

/-- What an update of `p` may come to: no more than there was, or than the limit. -/
def Torrent.allowance (t : Torrent) (p : Nat) : Int :=
  max ((t.reqs.requests p).card + (t.reqs.cancelled p).card) (t.nominalMaxRequests p)

/-- In the middle of an update of `p` with the limit `limit`. -/
structure Updating (p : Nat) (limit allowance : Int) (t : Torrent) : Prop where
  asks : AsksWhenLow (some p) t
  limit_eq : t.nominalMaxRequests p = limit
  within : ((t.reqs.requests p).card + (t.reqs.cancelled p).card : Int) ≤ allowance

theorem AsksWhenLow.requestsUpdated (h : AsksWhenLow (some p) t) (n : Nat) :
    AsksWhenLow none (t.requestsUpdated p n) := by
  intro q _ hneed
  by_cases hq : q = p
  · subst hq
    simp [requestsUpdated] at hneed
  · have hsame : (t.requestsUpdated p n).ctl.needRequestUpdate q = t.ctl.needRequestUpdate q :=
      update_of_ne hq _ _
    exact h q (fun heq => hq (Option.some.inj heq).symm) (hsame ▸ hneed)

theorem shouldRequest_noneLeft (r : Nat) : Ends NoneLeft (fun _ => True) (t.shouldRequest p r) := by
  unfold shouldRequest
  split_ifs
  · exact nofun
  · exact nofun
  · split
    · exact nofun
    · trivial

namespace Updating

variable {limit allowance : Int}

section

variable (h : Updating p limit allowance t)
include h

theorem takeRequest (r : Nat) :
    Ends NoneLeft (fun x => ∀ t' ∈ x, Updating p limit allowance t') (t.takeRequest p r) := by
  have hbooks := asksWhenLow_unbooks (some p)
  refine ((hbooks.takeRequest h.asks p r).and (Elsewhere.takeRequest hbooks.request r)).imp
    fun x ⟨hasks, helse⟩ t' ht' => ⟨hasks t' ht', ?_, ?_⟩
  · rw [(helse t' ht').nominalMaxRequests, h.limit_eq]
  · rw [(helse t' ht').requests, (helse t' ht').cancelled]
    exact h.within

theorem addRequest (hle : limit ≤ allowance)
    (hbelow : BelowLimit p t) {r : Nat} (hr : r ∉ t.reqs.requests p) :
    Updating p limit allowance (t.addRequest p r) where
  asks q hq hneed := by
    have hne : q ≠ p := fun heq => hq (heq ▸ rfl)
    exact isLowOnRequests_of_subset (h.asks q hq hneed)
      (fun _ hr' => (mem_update_add.mp hr').resolve_right fun heq => hne heq.1) fun _ hc => hc
  limit_eq := h.limit_eq
  within := by
    have hreqs : (t.addRequest p r).reqs.requests p = (t.reqs.requests p).add r :=
      update_self _ _ _
    have hlimit := h.limit_eq
    unfold BelowLimit at hbelow
    rw [hreqs, OrderedBitmap.card_add hr]
    change ((t.reqs.requests p).card + 1 + (t.reqs.cancelled p).card : Int) ≤ allowance
    omega

theorem sendRequest :
    Updating p limit allowance (t.sendRequest p).1 where
  asks := (asksWhenLow_unbooks (some p)).sendRequest h.asks p
  limit_eq := by
    unfold Torrent.sendRequest
    split <;> exact h.limit_eq
  within := by
    unfold Torrent.sendRequest
    split <;> exact h.within

theorem mustRequest (hle : limit ≤ allowance)
    (hbelow : BelowLimit p t) (r : Nat) :
    Ends NoneLeft (fun x => Updating p limit allowance x.1) (t.mustRequest p r) := by
  refine (shouldRequest_noneLeft r).bind fun _ _ => ?_
  split_ifs with hr
  · exact h
  · exact Ends.require (fun _ => (h.addRequest hle hbelow hr).sendRequest)
      fun _ => Panic.noConfusion

end

end Updating

theorem setInterested_reqs (b : Bool) : (t.setInterested p b).1.reqs = t.reqs := by
  unfold setInterested
  split_ifs
  · rfl
  · dsimp only
    split <;> rfl

theorem setInterested_limit (hasks : AsksWhenLow none t) (b : Bool) :
    Updating p (t.nominalMaxRequests p) (t.allowance p) (t.setInterested p b).1 where
  asks := (asksWhenLow_unbooks (some p)).setInterested (fun q _ => hasks q nofun) p b
  limit_eq := by
    unfold setInterested
    split_ifs
    · rfl
    · dsimp only
      split <;> rfl
  within := by
    rw [setInterested_reqs]
    exact le_max_left _ _

theorem applyRequests_limit {limit allowance : Int} (hle : limit ≤ allowance) (pops : List Nat)
    (h : Updating p limit allowance t) :
    Ends NoneLeft (fun x => Updating p limit allowance x.1) (applyRequests p pops t) :=
  applyRequests_ends (K := fun _ => Updating p limit allowance)
    (T := fun _ _ => Updating p limit allowance) (fun h => h) (fun h => h)
    (fun h => h.takeRequest _)
    (fun h hbelow => (h.mustRequest hle hbelow _).imp fun _ hx => by split_ifs <;> exact hx) h

theorem applyRequestState_limit (hasks : AsksWhenLow none t)
    (hneed : (t.ctl.needRequestUpdate p).isSome) (next : DesiredRequestState) (pops : List Nat) :
    Ends NoneLeft (fun t' => AsksWhenLow none t' ∧
        ((t'.reqs.requests p).card + (t'.reqs.cancelled p).card : Int) ≤ t.allowance p)
      (t.applyRequestState p next pops) := by
  have hnone : ((t.setInterested p next.interested).1.reqs.requests p).card = 0 := by
    rw [setInterested_reqs]
    exact OrderedBitmap.card_eq_zero_iff.mpr (isLowOnRequests_iff.mp (hasks p nofun hneed)).1
  refine Ends.require (fun _ => ?_) fun _ => nofun
  refine Ends.require (fun _ => ?_) fun hno => absurd (.inl hnone) hno
  refine (applyRequests_limit (le_max_right _ _) _ (setInterested_limit hasks _)).bind
    fun ⟨t₁, more⟩ h₁ => ?_
  refine Ends.require (fun _ => ?_) fun _ => nofun
  exact ⟨h₁.asks.requestsUpdated _, h₁.within⟩

/-! ## Runs -/

theorem update_asksWhenLow (hasks : AsksWhenLow none t) (input : StrategyInput)
    (pops : List Nat) :
    Ends NoneLeft (AsksWhenLow none) (t.maybeUpdateActualRequestState p input pops) := by
  unfold maybeUpdateActualRequestState
  split_ifs with hclosed hnone
  · exact hasks
  · exact hasks
  · have hneed : (t.ctl.needRequestUpdate p).isSome := by
      simpa [Option.isSome_iff_ne_none] using hnone
    exact (getDesiredRequestState_ends nofun p input).bind fun next _ =>
      (applyRequestState_limit hasks hneed next pops).imp fun _ h => h.1

theorem asksWhenLow_requestsOnly : RequestsOnly NoneLeft (AsksWhenLow none) where
  toUnbooks := asksWhenLow_unbooks none
  availPanic e he := by rintro rfl; rcases he with he | he | he <;> cases he
  storePanic e he := by rintro rfl; cases he

theorem asksWhenLow_aboutRequests :
    AboutRequests NoneLeft (fun _ _ => True) (AsksWhenLow none) where
  toRequestsOnly := asksWhenLow_requestsOnly
  setInfo h _ _ := h
  fill h _ _ := update_asksWhenLow h _ _
  updateWebseed h _ _ _ := update_asksWhenLow h _ _
  webseedRequest {t p} h _ _ := by
    unfold webseedRequest
    split
    · exact h
    · split_ifs
      · exact nofun
      · exact h
  webseedResult h _ _ := (asksWhenLow_unbooks none).requestResultHandler h
    fun _ _ h' => asksWhenLow_requestsOnly.receiveChunk h' _ _ _ _ _
  webseedDone h _ := h

theorem asksWhenLow_init (cfg : Config) (storage : Storage) :
    AsksWhenLow none (.init cfg storage) := fun _ _ hneed => nomatch hneed

/-- **The limit on outstanding requests.** In every run, an update that is asked for finds no
request outstanding; and when it ends, the peer has no more requests outstanding and cancels not
acknowledged than before, or than `nominalMaxRequests` allowed before. -/
theorem request_limit (cfg : Config) (storage : Storage) (events : List Event) :
    Ends (fun e => e ≠ .existingRequests)
      (fun t => ∀ p, (t.ctl.needRequestUpdate p).isSome → (t.reqs.requests p).card = 0 ∧
        ∀ next pops, Ends (fun e => e ≠ .existingRequests)
          (fun t' => ((t'.reqs.requests p).card + (t'.reqs.cancelled p).card : Int) ≤
            max ((t.reqs.requests p).card + (t.reqs.cancelled p).card : Int)
              (t.nominalMaxRequests p))
          (t.applyRequestState p next pops))
      (run step (init cfg storage) events) := by
  refine (asksWhenLow_aboutRequests.aboutPeers.keeps.run (asksWhenLow_init cfg storage)
    (.of_forall (fun _ _ => trivial) events)).imp fun t ⟨hasks, _⟩ p hneed =>
      ⟨?_, fun next pops => ?_⟩
  · exact OrderedBitmap.card_eq_zero_iff.mpr (isLowOnRequests_iff.mp (hasks p nofun hneed)).1
  · exact (applyRequestState_limit hasks hneed next pops).imp fun _ h => h.2

end ReliableBT
