import ReliableBT.Mse.Handshake

/-!
# Agreement of the encrypted handshake (`mse/mse.go`)

A conversation is the two sides of a handshake and the bytes on the way between them. The handshake
of either side may go on at any time, each read of it may return any part of what is there, and as
soon as it has returned, the user of that side writes and reads, also while the other side is still
at it. Nothing is lost or reordered on the way.

* `Inv.act`, `Inv.run`: in every conversation the handshakes keep to their scripts, and behind what
  is left of these, the bytes on the way are what the users wrote.
* `agreement`: so both sides return the same method and key, and the user of the receiver reads
  the initial payload and then what the user of the initiator writes, and conversely.
-/

open Option ReliableBT.Mse.ReadWriter List

namespace ReliableBT.Mse

open ReliableBT.Session

/-! ## Conversations -/

/-- One side: its handshake or what that returned, the bytes on the way to it, and what its user
wrote and read since. What the handshake returned is kept up to date. -/
structure Side where
  proc : Proc (Except Error HandshakeResult)
  inbox : List UInt8 := []
  wrote : List UInt8 := []
  got : List UInt8 := []

/-- An action of one side. -/
inductive Action where
  /-- the handshake goes on; if it reads, the read returns `m` bytes -/
  | step (m : ℕ)
  /-- the user writes -/
  | write (bs : List UInt8)
  /-- the user reads with a buffer of `n` bytes; if that is from the connection, it returns `m` -/
  | read (n m : ℕ)

/-- The user of a side reads: what is held first, as from an `io.MultiReader` -/
def Side.read (x : Side) (res : HandshakeResult) (n m : ℕ) : Option Side :=
  if res.rw.held ≠ [] then
    if 0 < n then
      some { x with
        proc := .ret (.ok { res with rw := { res.rw with held := res.rw.held.drop n } })
        got := x.got ++ res.rw.held.take n }
    else none
  else if 0 < m ∧ m ≤ n ∧ m ≤ x.inbox.length then
    some { x with
      proc := .ret (.ok { res with rw := { res.rw with reader := skip res.rw.reader m } })
      inbox := x.inbox.drop m
      got := x.got ++ code res.rw.reader (x.inbox.take m) }
  else none

/-- An action of the side `x`, where `y` is the other one. -/
def act (x y : Side) : Action → Option (Side × Side)
  | .step m =>
    match x.proc with
    | .ret _ => none
    | .send bs k => some ({ x with proc := k }, { y with inbox := y.inbox ++ bs })
    | .recv n k =>
      if 0 < m ∧ m ≤ n ∧ m ≤ x.inbox.length then
        some ({ x with proc := k (x.inbox.take m), inbox := x.inbox.drop m }, y)
      else none
  | .write bs =>
    match x.proc with
    | .ret (.ok res) =>
      some ({ x with
          proc := .ret (.ok { res with
            rw := { res.rw with writer := skip res.rw.writer bs.length } })
          wrote := x.wrote ++ bs },
        { y with inbox := y.inbox ++ code res.rw.writer bs })
    | _ => none
  | .read n m =>
    match x.proc with
    | .ret (.ok res) => (x.read res n m).map fun x' => (x', y)
    | _ => none

/-- An action of the initiator, or of the receiver. -/
def actOf (initer : Bool) (s : Side × Side) (a : Action) : Option (Side × Side) :=
  if initer then act s.1 s.2 a else (act s.2 s.1 a).map Prod.swap

/-- A conversation. -/
def converse (s : Side × Side) : List (Bool × Action) → Option (Side × Side)
  | [] => some s
  | (initer, a) :: as => (actOf initer s a).bind fun s' => converse s' as

/-- How many steps of the handshakes there are in a conversation. -/
def handshakeSteps (as : List (Bool × Action)) : ℕ :=
  as.countP fun
    | (_, .step _) => true
    | _ => false

/-- What a side will still read if only these bytes arrive. -/
def ReadWriter.pending (rw : ReadWriter) (w : List UInt8) : List UInt8 :=
  rw.held ++ code rw.reader w

/-! ## One direction -/

/-- The bytes from `x` to `y`: behind `h`, which is for the handshake of `y`, there is what the user
of `x` wrote and `y` has not read. -/
structure Flow (x y : Side) (first : List UInt8) (rwX rwY : ReadWriter) (h t : List UInt8) :
    Prop where
  inbox : y.inbox = h ++ t
  ended : t = [] ∨ ∃ r, x.proc = .ret r
  aligned : rwX.writer = skip rwY.reader t.length
  data : y.got ++ rwY.pending t = first ++ x.wrote

namespace Flow

variable {x y : Side} {first h t : List UInt8} {rwX rwY : ReadWriter}

variable {bs : List UInt8} {res : HandshakeResult} {m : ℕ}

theorem send {k : Proc (Except Error HandshakeResult)} (hf : Flow x y first rwX rwY h t)
    (hx : x.proc = .send bs k) :
    Flow { x with proc := k } { y with inbox := y.inbox ++ bs } first rwX rwY (h ++ bs) t := by
  obtain ⟨hinbox, hended, haligned, hdata⟩ := hf
  rcases hended with rfl | ⟨r, hr⟩
  · exact ⟨by simp [hinbox], .inl rfl, haligned, hdata⟩
  · cases hx.symm.trans hr

theorem write (hf : Flow x y first res.rw rwY h t) :
    Flow
      { x with
        proc := .ret (.ok { res with
          rw := { res.rw with writer := skip res.rw.writer bs.length } })
        wrote := x.wrote ++ bs }
      { y with inbox := y.inbox ++ code res.rw.writer bs } first
      { res.rw with writer := skip res.rw.writer bs.length } rwY h
      (t ++ code res.rw.writer bs) := by
  obtain ⟨hinbox, -, haligned, hdata⟩ := hf
  refine ⟨by simp [hinbox], .inr ⟨_, rfl⟩, by simp [haligned], ?_⟩
  rw [pending, code_append, ← haligned, code_code]
  rw [pending] at hdata
  simp only [← append_assoc] at hdata ⊢
  rw [hdata]

theorem recv {k : List UInt8 → Proc (Except Error HandshakeResult)}
    (hf : Flow x y first rwX rwY h t) (hm : m ≤ h.length) :
    y.inbox.take m = h.take m ∧
      Flow x { y with proc := k (y.inbox.take m), inbox := y.inbox.drop m } first rwX rwY
        (h.drop m) t := by
  obtain ⟨hinbox, hended, haligned, hdata⟩ := hf
  refine ⟨by rw [hinbox, take_append_of_le_length hm], ?_, hended, haligned, hdata⟩
  simp [hinbox, drop_append_of_le_length hm]

theorem readHeld (n : ℕ) (hf : Flow x y first rwX res.rw h t) :
    Flow x
      { y with
        proc := .ret (.ok { res with rw := { res.rw with held := res.rw.held.drop n } })
        got := y.got ++ res.rw.held.take n } first rwX
      { res.rw with held := res.rw.held.drop n } h t := by
  obtain ⟨hinbox, hended, haligned, hdata⟩ := hf
  refine ⟨hinbox, hended, haligned, ?_⟩
  rw [← hdata, pending, pending, append_assoc,
    ← append_assoc (res.rw.held.take n), take_append_drop]

theorem readWire (hf : Flow x y first rwX res.rw [] t) (hheld : res.rw.held = [])
    (hm : m ≤ t.length) :
    Flow x
      { y with
        proc := .ret (.ok { res with rw := { res.rw with reader := skip res.rw.reader m } })
        inbox := y.inbox.drop m
        got := y.got ++ code res.rw.reader (y.inbox.take m) } first rwX
      { res.rw with reader := skip res.rw.reader m } [] (t.drop m) := by
  obtain ⟨hinbox, hended, haligned, hdata⟩ := hf
  have htake : (t.take m).length = m := length_take_of_le hm
  refine ⟨by simp [hinbox], ?_, ?_, ?_⟩
  · rcases hended with rfl | hended
    · exact .inl drop_nil
    · exact .inr hended
  · rw [haligned, skip_skip, length_drop, Nat.add_sub_cancel' hm]
  · have hcode : code res.rw.reader t =
        code res.rw.reader (t.take m) ++ code (skip res.rw.reader m) (t.drop m) := by
      rw [← congrArg (code res.rw.reader) (take_append_drop m t), code_append, htake]
    rw [← hdata, pending, pending, hheld, hcode, hinbox]
    simp

theorem congr {x' y' : Side} {rwX' rwY' : ReadWriter} (hf : Flow x y first rwX rwY h t)
    (hx : ∀ r, x.proc = .ret r → ∃ r', x'.proc = .ret r') (hwrote : x'.wrote = x.wrote)
    (hinbox : y'.inbox = y.inbox) (hgot : y'.got = y.got) (hwriter : rwX'.writer = rwX.writer)
    (hheld : rwY'.held = rwY.held) (hreader : rwY'.reader = rwY.reader) :
    Flow x' y' first rwX' rwY' h t where
  inbox := hinbox.trans hf.inbox
  ended := hf.ended.imp_right fun ⟨r, hr⟩ => hx r hr
  aligned := by rw [hwriter, hreader, hf.aligned]
  data := by
    have := hf.data
    rw [pending] at this ⊢
    rw [hgot, hheld, hreader, hwrote, this]

end Flow

/-! ## The invariant -/

/-- The handshakes keep to their scripts, with at most `n` events left, and both directions are as
they should be; `resX` and `resY` are what the handshakes return. -/
def Inv (n : ℕ) (resX resY : HandshakeResult) (x y : Side) : Prop :=
  ∃ hX hY tX tY rwX rwY,
    Ready n x.proc y.proc hX hY (.ok { resX with rw := rwX }) (.ok { resY with rw := rwY }) ∧
      Flow x y resY.rw.held rwX rwY hY tY ∧ Flow y x resX.rw.held rwY rwX hX tX

variable {n : ℕ} {resX resY : HandshakeResult} {x y : Side}

theorem Inv.symm (h : Inv n resX resY x y) : Inv n resY resX y x := by
  obtain ⟨hX, hY, tX, tY, rwX, rwY, hready, hxy, hyx⟩ := h
  exact ⟨hY, hX, tY, tX, rwY, rwX, hready.symm, hyx, hxy⟩

/-- How many steps of a handshake an action is. -/
def Action.steps : Action → ℕ
  | .step _ => 1
  | _ => 0

theorem Inv.step {m : ℕ} {s : Side × Side} (h : Inv n resX resY x y)
    (hs : act x y (.step m) = some s) : ∃ n' < n, Inv n' resX resY s.1 s.2 := by
  obtain ⟨hX, hY, tX, tY, rwX, rwY, hready, hxy, hyx⟩ := h
  unfold act at hs
  cases hp : x.proc with
  | ret r => simp [hp] at hs
  | send bs k =>
    simp only [hp, some.injEq] at hs
    subst hs
    rw [hp] at hready
    obtain ⟨n', hn, hready⟩ := hready.send
    refine ⟨n', hn, hX, hY ++ bs, tX, tY, rwX, rwY, hready, hxy.send hp, ?_⟩
    exact hyx.congr (fun r hr => ⟨r, hr⟩) rfl rfl rfl rfl rfl rfl
  | recv k f =>
    simp only [hp] at hs
    split at hs
    · rename_i hm
      obtain ⟨h0, hmk, hlen⟩ := hm
      obtain rfl := some.inj hs
      rw [hp] at hready
      -- if `y` has ended then all that is read is there, and else there is nothing but that
      have hmX : m ≤ hX.length := by
        rcases hyx.ended with rfl | ⟨r, hr⟩
        · rwa [hyx.inbox, append_nil] at hlen
        · rw [hr] at hready
          exact hmk.trans hready.recv_ret
      obtain ⟨htake, hyx⟩ := hyx.recv (k := f) hmX
      obtain ⟨n', hn, hready⟩ := hready.recv h0 hmk hmX
      rw [← htake] at hready
      refine ⟨n', hn, hX.drop m, hY, tX, tY, rwX, rwY, hready, ?_, hyx⟩
      exact hxy.congr (fun r hr => nomatch hp.symm.trans hr) rfl rfl rfl rfl rfl rfl
    · cases hs

/-- A side that has returned has the method and the key, and nothing of the handshake is on the way
to it. -/
theorem Inv.returned {r : Except Error HandshakeResult} (h : Inv n resX resY x y)
    (hx : x.proc = .ret r) : ∃ rw, r = .ok { resX with rw := rw } ∧
      x.got ++ rw.pending x.inbox = resX.rw.held ++ y.wrote := by
  obtain ⟨hX, hY, tX, tY, rwX, rwY, hready, -, hyx⟩ := h
  rw [hx] at hready
  obtain ⟨rfl, rfl⟩ := hready.ret_left
  refine ⟨rwX, rfl, ?_⟩
  rw [hyx.inbox]
  exact hyx.data

theorem Inv.write {bs : List UInt8} {s : Side × Side} (h : Inv n resX resY x y)
    (hs : act x y (.write bs) = some s) : Inv n resX resY s.1 s.2 := by
  simp only [Mse.act] at hs
  split at hs
  · rename_i res hp
    obtain rfl := some.inj hs
    obtain ⟨hX, hY, tX, tY, rwX, rwY, hready, hxy, hyx⟩ := h
    rw [hp] at hready
    obtain ⟨hres, -⟩ := hready.ret_left
    obtain rfl := Except.ok.inj hres
    refine ⟨hX, hY, tX, _, _, rwY, hready.ret_congr _, hxy.write, ?_⟩
    exact hyx.congr (fun r hr => ⟨r, hr⟩) rfl rfl rfl rfl rfl rfl
  · cases hs

theorem Inv.read {k m : ℕ} {s : Side × Side} (h : Inv n resX resY x y)
    (hs : act x y (.read k m) = some s) : Inv n resX resY s.1 s.2 := by
  simp only [Mse.act] at hs
  split at hs
  · rename_i res hp
    obtain ⟨hX, hY, tX, tY, rwX, rwY, hready, hxy, hyx⟩ := h
    rw [hp] at hready
    obtain ⟨hres, rfl⟩ := hready.ret_left
    obtain rfl := Except.ok.inj hres
    obtain ⟨x', hx', rfl⟩ := map_eq_some_iff.mp hs
    unfold Side.read at hx'
    split at hx'
    · split at hx'
      · obtain rfl := some.inj hx'
        refine ⟨_, hY, tX, tY, _, rwY, hready.ret_congr _, ?_, hyx.readHeld k⟩
        exact hxy.congr (fun _ _ => ⟨_, rfl⟩) rfl rfl rfl rfl rfl rfl
      · cases hx'
    · rename_i hheld
      split at hx'
      · rename_i hm
        obtain rfl := some.inj hx'
        have hlen : m ≤ tX.length := by
          have := hm.2.2
          rwa [hyx.inbox] at this
        refine ⟨_, hY, _, tY, _, rwY, hready.ret_congr _, ?_, hyx.readWire (not_not.mp hheld) hlen⟩
        exact hxy.congr (fun _ _ => ⟨_, rfl⟩) rfl rfl rfl rfl rfl rfl
      · cases hx'
  · cases hs

theorem Inv.act {a : Action} {s : Side × Side} (h : Inv n resX resY x y)
    (hs : act x y a = some s) : ∃ n', n' + a.steps ≤ n ∧ Inv n' resX resY s.1 s.2 := by
  cases a with
  | step m =>
    obtain ⟨n', hn, h'⟩ := h.step hs
    exact ⟨n', hn, h'⟩
  | write bs => exact ⟨n, le_rfl, h.write hs⟩
  | read k m => exact ⟨n, le_rfl, h.read hs⟩

theorem Inv.run {as : List (Bool × Action)} {s s' : Side × Side} (h : Inv n resX resY s.1 s.2)
    (hs : converse s as = some s') :
    ∃ n', n' + handshakeSteps as ≤ n ∧ Inv n' resX resY s'.1 s'.2 := by
  induction as generalizing n s with
  | nil =>
    obtain rfl := some.inj hs
    exact ⟨n, le_rfl, h⟩
  | cons a as ih =>
    obtain ⟨initer, a⟩ := a
    obtain ⟨s₁, hs₁, hs⟩ := bind_eq_some_iff.mp hs
    have hstep : ∃ n', n' + a.steps ≤ n ∧ Inv n' resX resY s₁.1 s₁.2 := by
      cases initer with
      | true => exact h.act hs₁
      | false =>
        obtain ⟨s₂, hs₂, rfl⟩ := map_eq_some_iff.mp hs₁
        obtain ⟨n', hn, h'⟩ := h.symm.act hs₂
        exact ⟨n', hn, h'.symm⟩
    obtain ⟨n₁, hn₁, h₁⟩ := hstep
    obtain ⟨n', hn, h'⟩ := ih h₁ hs
    refine ⟨n', ?_, h'⟩
    have hcount : handshakeSteps ((initer, a) :: as) = a.steps + handshakeSteps as := by
      cases a <;> simp [handshakeSteps, Action.steps, Nat.add_comm]
    omega

/-! ## Agreement -/

/-- A conversation begins with the two handshakes. -/
def start (P : Primitives) (A : Initiator) (B : Receiver) : Side × Side :=
  ({ proc := initiateHandshake P A }, { proc := receiveHandshake P B })

theorem start_inv {P : Primitives} {A : Initiator} {B : Receiver} (h : Compatible P A B) :
    Inv ((initiatorScript P A B).length + (receiverScript P A B).length) (initiatorResult P A B)
      (receiverResult P A B) (start P A B).1 (start P A B).2 := by
  have haligned : (initiatorResult P A B).rw.writer = (receiverResult P A B).rw.reader ∧
      (receiverResult P A B).rw.writer = (initiatorResult P A B).rw.reader := by
    unfold initiatorResult receiverResult ofMethod
    split <;> exact ⟨rfl, rfl⟩
  exact ⟨[], [], [], [], (initiatorResult P A B).rw, (receiverResult P A B).rw,
    ⟨_, _, initiateHandshake_follows h, receiveHandshake_follows h, joint_scripts, le_rfl⟩,
    ⟨rfl, .inl rfl, by simp [haligned], by simp [pending, start]⟩,
    ⟨rfl, .inl rfl, by simp [haligned], by simp [pending, start]⟩⟩

theorem act_of_canStep {w : List UInt8} (h : CanStep w x.proc) (hw : w <+: x.inbox) :
    ∃ s, act x y (.step 1) = some s := by
  cases hp : x.proc with
  | ret r => simp [hp, CanStep] at h
  | send bs k => exact ⟨_, by simp only [act, hp]; rfl⟩
  | recv n k =>
    rw [hp] at h
    obtain ⟨hn, hne⟩ := h
    have hlen := hw.length_le
    have hpos := length_pos_of_ne_nil hne
    have hm : 0 < 1 ∧ 1 ≤ n ∧ 1 ≤ x.inbox.length := by omega
    exact ⟨_, by simp only [act, hp]; exact if_pos hm⟩

/-- One of the handshakes can go on as long as not both have returned. -/
theorem Inv.progress (h : Inv n resX resY x y) :
    (∃ r r', x.proc = .ret r ∧ y.proc = .ret r') ∨
      ∃ initer s, actOf initer (x, y) (.step 1) = some s := by
  obtain ⟨hX, hY, tX, tY, rwX, rwY, hready, hxy, hyx⟩ := h
  rcases hready.progress with ⟨hx, hy⟩ | hx | hy
  · exact .inl ⟨_, _, hx, hy⟩
  · exact .inr ⟨true, act_of_canStep hx ⟨tX, hyx.inbox.symm⟩⟩
  · obtain ⟨s, hs⟩ := @act_of_canStep y x hY hy ⟨tY, hxy.inbox.symm⟩
    exact .inr ⟨false, s.swap, by simp [actOf, hs]⟩

theorem read_isSome {res : HandshakeResult} {k : ℕ} (hk : 0 < k)
    (h : res.rw.pending x.inbox ≠ []) : (x.read res k 1).isSome := by
  unfold Side.read
  split
  · rfl
  · rename_i hheld
    have hne : x.inbox ≠ [] := by
      intro he
      simp [pending, he, not_not.mp hheld] at h
    have hpos := length_pos_of_ne_nil hne
    rw [if_pos (by omega)]
    rfl

/-- The handshake of `x` has not returned, or it returned the method and the key, its user has read
the beginning of `total`, and can read the rest as it arrives. -/
def Agrees (A : Initiator) (B : Receiver) (x y : Side) (total : List UInt8) : Prop :=
  ∀ r, x.proc = .ret r → ∃ rw, r = .ok ⟨rw, chosen A B, A.skey⟩ ∧
    x.got ++ rw.pending x.inbox = total ∧
    ∀ k > 0, x.got ≠ total → (act x y (.read k 1)).isSome

theorem Inv.agrees {A : Initiator} {B : Receiver} (h : Inv n resX resY x y)
    (hm : resX.method = chosen A B) (hskey : resX.secretKey = A.skey) :
    Agrees A B x y (resX.rw.held ++ y.wrote) := by
  intro r hr
  obtain ⟨rw, rfl, hdata⟩ := h.returned hr
  refine ⟨rw, by rw [hm, hskey], hdata, fun k hk hne => ?_⟩
  have hpending : rw.pending x.inbox ≠ [] := by
    intro he
    rw [he, append_nil] at hdata
    exact hne hdata
  simp only [Mse.act, hr, isSome_map]
  exact read_isSome hk hpending

/-- In every conversation of two sides that can agree, the handshakes take a bounded number of steps
and go on until both have returned, with the same method and the same key. The user of the initiator
then reads what the user of the receiver writes, and the user of the receiver reads the initial
payload and what the user of the initiator writes. -/
theorem agreement {P : Primitives} {A : Initiator} {B : Receiver} (h : Compatible P A B) :
    ∃ N, ∀ as x y, converse (start P A B) as = some (x, y) →
      handshakeSteps as ≤ N ∧
      ((∃ r r', x.proc = .ret r ∧ y.proc = .ret r') ∨
        ∃ initer s, actOf initer (x, y) (.step 1) = some s) ∧
      Agrees A B x y y.wrote ∧ Agrees A B y x (A.ia ++ x.wrote) := by
  refine ⟨(initiatorScript P A B).length + (receiverScript P A B).length, fun as x y hrun => ?_⟩
  obtain ⟨n', hn, hinv⟩ := (start_inv h).run hrun
  refine ⟨(Nat.le_add_left _ _).trans hn, hinv.progress, ?_, ?_⟩
  · have hx := @Inv.agrees _ _ _ _ _ A B hinv rfl rfl
    have hheld : (initiatorResult P A B).rw.held = [] := by
      unfold initiatorResult ReadWriter.ofMethod
      split <;> rfl
    rwa [hheld] at hx
  · have hy := @Inv.agrees _ _ _ _ _ A B hinv.symm rfl rfl
    have hheld : (receiverResult P A B).rw.held = A.ia := by
      unfold receiverResult ReadWriter.ofMethod
      split <;> rfl
    rwa [hheld] at hy

/-- Primitives that are easy to compute with. -/
def samplePrimitives : Primitives where
  sha1 bs := Bytes.putBE 20 (Bytes.getBE bs)
  rc4 key i := .ofNat (Bytes.getBE key + i)
  length_sha1 _ := Bytes.length_putBE 20 _

def sampleInitiator : Initiator where
  x := 3
  pad := [1, 2]
  padLen := 1
  skey := [5]
  ia := [7, 8, 9]
  cryptoProvides := 2
  pad_le := by decide
  padLen_le := by decide

def sampleReceiver : Receiver where
  x := 4
  pad := [3]
  padLen := 2
  skeys := [[4], [5]]
  chooseMethod := defaultCryptoSelector
  pad_le := by decide
  padLen_le := by decide

theorem sample_compatible : Compatible samplePrimitives sampleInitiator sampleReceiver where
  ia_le := by decide
  skey_mem := by decide
  skey_eq := by decide +kernel
  supported := by decide
  provided := by decide
  sHash_first := by decide +kernel
  vc_first := by decide +kernel

/-- The two sides of the sample agree on RC4. -/
theorem agreement_sample : chosen sampleInitiator sampleReceiver = cryptoMethodRC4 ∧
    ∃ N, ∀ as x y,
      converse (start samplePrimitives sampleInitiator sampleReceiver) as = some (x, y) →
      handshakeSteps as ≤ N ∧
      ((∃ r r', x.proc = .ret r ∧ y.proc = .ret r') ∨
        ∃ initer s, actOf initer (x, y) (.step 1) = some s) ∧
      Agrees sampleInitiator sampleReceiver x y y.wrote ∧
      Agrees sampleInitiator sampleReceiver y x ([7, 8, 9] ++ x.wrote) :=
  ⟨by decide, agreement sample_compatible⟩

end ReliableBT.Mse
