import ReliableBT.Bencode.Typed
import ReliableBT.Lib.Outcome

/-!
# The decoder comes to an end

Every function of the decoder uses up input before it calls itself, so that the fuel `Decode` starts
with is enough on every input.

* `decode_ne_outOfFuel`: `Decode` returns, on every input and for every target.
* `parseValue_fuel`: with enough fuel, the result does not depend on it.
-/

open Nat List

namespace ReliableBT.Bencode.Decoder

open Decimal

variable {τ α : Type}

/-- There is an error other than the lack of fuel, or less than `n` bytes are left; the error that
is part of the result is not the lack of fuel either. -/
def Shrinks (err : α → Option Err) (n : ℕ) : Except Err (α × Decoder) → Prop :=
  Ends (· ≠ .outOfFuel) fun a => a.2.rest.length < n ∧ err a.1 ≠ some .outOfFuel

/-- A function that returns no error. -/
def noErr (_ : α) : Option Err := none

/-! ## Tokens -/

/-- An error that is neither a lack of fuel nor a panic. -/
def Plain : Err → Prop
  | .outOfFuel | .unexportedField | .runtimeError => False
  | _ => True

variable {e : Err} {err : Option Err} {n fuel : ℕ} {T : τ → GoType τ}

theorem Plain.ne (h : Plain e) : e ≠ .outOfFuel := by
  rintro rfl
  exact h

/-- Something is read, and the errors, thrown or returned, are plain. -/
def Reads (err : α → Option Err) (n : ℕ) : Except Err (α × Decoder) → Prop :=
  Ends Plain fun a => a.2.rest.length < n ∧ ∀ e ∈ err a.1, Plain e

theorem ne_outOfFuel (h : ∀ e ∈ err, Plain e) : err ≠ some .outOfFuel :=
  fun he => h _ he

theorem Reads.shrinks {err : α → Option Err} {x : Except Err (α × Decoder)} (h : Reads err n x) :
    Shrinks err n x :=
  h.mono (fun _ => Plain.ne) fun _ ha => ⟨ha.1, ne_outOfFuel ha.2⟩

variable {d : Decoder}

theorem ends_readUntil (sep : UInt8) :
    Ends Plain (fun d' => d'.rest.length < d.rest.length) (readUntil sep d) := by
  obtain ⟨rest, o, b, m⟩ := d
  rcases exists_split sep rest with hs | ⟨u, r, hu, rfl⟩
  · obtain ⟨o', ho⟩ := readUntil_none (d := ⟨rest, o, b, m⟩) hs
    rw [ho]
    trivial
  · rw [readUntil_eq hu]
    simp
    omega

theorem reads_readInt : Reads id d.rest.length (readInt d) := by
  refine (ends_readUntil 101).bind fun d₁ hd => ⟨hd, ?_⟩
  dsimp only [id]
  split <;> simp [Plain]

/-- The error of `parseStringLength`. -/
def lengthErr : Except Err ℤ → Option Err
  | .error e => some e
  | .ok _ => none

theorem reads_parseStringLength : Reads lengthErr d.rest.length (parseStringLength d) := by
  refine (ends_readUntil 58).bind fun d₁ hd => ?_
  split
  · split
    · trivial
    · split <;> exact ⟨hd, by simp [lengthErr, Plain]⟩
  · exact ⟨hd, by simp [lengthErr, Plain]⟩

theorem reads_parseIntInterface : Reads noErr d.rest.length (parseIntInterface d) := by
  refine reads_readInt.bind ?_
  rintro ⟨err, d₁⟩ ⟨hd, herr⟩
  cases err with
  | some e => exact herr e rfl
  | none =>
    dsimp only
    split
    · exact ⟨hd, nofun⟩
    · split
      · trivial
      · exact ⟨hd, nofun⟩
    · trivial

theorem reads_parseStringInterface : Reads noErr d.rest.length (parseStringInterface d) := by
  refine reads_parseStringLength.bind ?_
  rintro ⟨length, d₁⟩ ⟨hd, herr⟩
  cases length with
  | error e => exact herr e rfl
  | ok n =>
    dsimp only at hd ⊢
    rw [readBytes]
    split
    · refine ⟨lt_of_le_of_lt ?_ hd, by rintro _ ⟨⟩⟩
      simp
    · trivial

variable {g : GoType τ}

theorem reads_parseInt : Reads Prod.fst d.rest.length (parseInt g d) := by
  refine reads_readInt.bind ?_
  rintro ⟨err, d₁⟩ ⟨hd, herr⟩
  cases err with
  | some e => exact ⟨hd, herr⟩
  | none =>
    dsimp only
    split
    · split
      · trivial
      · split <;> exact ⟨hd, by simp [Plain]⟩
    · split
      · trivial
      · split <;> exact ⟨hd, by simp [Plain]⟩
    · exact ⟨hd, nofun⟩
    · exact ⟨hd, by simp [Plain]⟩

theorem storeString_plain (T : τ → GoType τ) (s : Str) : ∀ e ∈ (storeString T g s).1, Plain e := by
  rw [storeString]
  repeat' split
  all_goals simp [Plain]

theorem reads_parseString (T : τ → GoType τ) :
    Reads Prod.fst d.rest.length (parseString T g d) := by
  refine reads_parseStringLength.bind ?_
  rintro ⟨length, d₁⟩ ⟨hd, herr⟩
  cases length with
  | error e => exact ⟨hd, herr⟩
  | ok n =>
    have hfull : Ends Plain (fun a => a.2.rest.length ≤ d₁.rest.length) (readFull n.toNat d₁) := by
      rw [readFull]
      split
      · simp
      · split <;> trivial
    exact hfull.bind fun a ha => ⟨lt_of_le_of_lt ha hd, storeString_plain T a.1⟩

theorem ends_readOneString :
    Ends Plain (fun d' => d'.rest.length < d.rest.length) (readOneString d) := by
  refine (ends_readUntil 58).bind fun d₁ hd => ?_
  split
  · trivial
  · rw [copyN]
    split
    · refine lt_of_le_of_lt ?_ hd
      simp
    · trivial

/-! ## Values for an `interface{}` -/

/-- What is thrown with this fuel, where `n` is enough. -/
def Spends (fuel n : ℕ) (e : Err) : Prop := Plain e ∨ e = .outOfFuel ∧ fuel < n

theorem Spends.succ {m : ℕ} (h : Spends fuel m e) (hn : m < n) : Spends (fuel + 1) n e :=
  h.imp_right fun h => ⟨h.1, by omega⟩

theorem Spends.ne (h : Spends fuel n e) (hn : n ≤ fuel) : e ≠ .outOfFuel := by
  rcases h with h | h
  · exact h.ne
  · omega

theorem ends_interface (fuel : ℕ) :
    (∀ d, Ends (Spends fuel (2 * d.rest.length + 1))
      (fun a => a.2.rest.length < d.rest.length) (parseValueInterface fuel d)) ∧
    (∀ dict last d, Ends (Spends fuel (2 * d.rest.length + 2))
      (fun a => a.2.rest.length < d.rest.length) (parseDictInterface fuel dict last d)) ∧
    ∀ list d, Ends (Spends fuel (2 * d.rest.length + 2))
      (fun a => a.2.rest.length < d.rest.length) (parseListInterface fuel list d) := by
  induction fuel with
  | zero => exact ⟨fun _ => .inr ⟨rfl, by omega⟩, fun _ _ _ => .inr ⟨rfl, by omega⟩,
      fun _ _ => .inr ⟨rfl, by omega⟩⟩
  | succ fuel ih =>
    obtain ⟨value, dictLoop, listLoop⟩ := ih
    refine ⟨fun d => ?_, fun dict last d => ?_, fun list d => ?_⟩
    · obtain ⟨rest, o, buf, m⟩ := d
      cases rest with
      | nil => exact .inl trivial
      | cons b r =>
        simp only [length_cons]
        rw [parseValueInterface_cons]
        split
        · exact lt_succ_self _
        split
        · exact (dictLoop [] none ⟨r, o + 1, buf, m⟩).elim (fun _ he => he.succ (by grind))
            fun _ h => lt_succ_of_lt h
        split
        · exact (listLoop [] ⟨r, o + 1, buf, m⟩).elim (fun _ he => he.succ (by grind))
            fun _ h => lt_succ_of_lt h
        split
        · exact reads_parseIntInterface.elim (fun _ he => .inl he) fun _ h => lt_succ_of_lt h.1
        split
        · exact reads_parseStringInterface.elim (fun _ he => .inl he) fun _ h => lt_succ_of_lt h.1
        · exact .inl trivial
    · rw [parseDictInterface]
      refine (value d).elim (fun _ he => he.succ (by omega)) ?_
      rintro ⟨_ | v, d₁⟩ hd
      · exact hd
      cases v with
      | str key =>
        dsimp only at hd ⊢
        split
        · exact .inl trivial
        refine (value d₁).elim (fun _ he => he.succ (by omega)) ?_
        rintro ⟨_ | v, d₂⟩ hd₂
        · exact .inl trivial
        · dsimp only at hd₂
          exact (dictLoop _ _ d₂).mono (fun _ he => he.succ (by omega)) fun _ h => by omega
      | _ => exact .inl trivial
    · rw [parseListInterface]
      refine (value d).elim (fun _ he => he.succ (by omega)) ?_
      rintro ⟨_ | v, d₁⟩ hd
      · exact hd
      · dsimp only at hd
        exact (listLoop _ d₁).mono (fun _ he => he.succ (by omega)) fun _ h => by omega

theorem valueFuel (d : Decoder) (hf : 2 * d.rest.length + 1 ≤ fuel) :
    Ends (· ≠ .outOfFuel) (fun a => a.2.rest.length < d.rest.length) (parseValueInterface fuel d) :=
  ((ends_interface fuel).1 d).mono (fun _ he => he.ne hf) fun _ h => h

/-! ## The text of a value -/

theorem ends_text (fuel : ℕ) :
    (∀ d, Ends (Spends fuel (2 * d.rest.length + 1))
      (fun a => if a.1 then a.2.rest.length < d.rest.length else a.2.rest = d.rest)
      (readOneValue fuel d)) ∧
    ∀ d, Ends (Spends fuel (2 * d.rest.length + 2)) (fun d' => d'.rest.length ≤ d.rest.length)
      (readValues fuel d) := by
  induction fuel with
  | zero => exact ⟨fun _ => .inr ⟨rfl, by omega⟩, fun _ => .inr ⟨rfl, by omega⟩⟩
  | succ fuel ih =>
    obtain ⟨value, loop⟩ := ih
    refine ⟨fun d => ?_, fun d => ?_⟩
    · obtain ⟨rest, o, buf, m⟩ := d
      cases rest with
      | nil => exact .inl trivial
      | cons b r =>
        rw [readOneValue]
        dsimp only
        split
        · simp
        split
        · refine (loop ⟨r, o + 1, buf ++ [b], m⟩).elim (fun _ he => he.succ (by grind)) ?_
          intro d₁ hle
          dsimp only at hle ⊢
          rw [readByte]
          cases hr : d₁.rest with
          | nil => exact .inl trivial
          | cons c s =>
            rw [hr] at hle
            simp only [length_cons, ends_ok, if_true] at hle ⊢
            omega
        split
        · exact (ends_readUntil 101).elim (fun _ he => .inl he) fun _ h => lt_succ_of_lt h
        split
        · exact ends_readOneString.elim (fun _ he => .inl he) fun _ h => lt_succ_of_lt h
        · exact .inl trivial
    · rw [readValues]
      refine (value d).elim (fun _ he => he.succ (by omega)) ?_
      rintro ⟨_ | _, d₁⟩ hd
      · have heq : d₁.rest = d.rest := by simpa using hd
        simp [heq]
      · have hlt : d₁.rest.length < d.rest.length := hd
        exact (loop d₁).mono (fun _ he => he.succ (by omega)) fun _ h => by omega

/-! ## Values for the other targets -/

/-- A value was read, or there was no input; a lack of fuel is neither thrown nor returned. -/
def Moves (n : ℕ) : Except Err (Parsed × Decoder) → Prop :=
  Ends (· ≠ .outOfFuel) fun a =>
    (a.2.rest.length < n ∨ a.1.err = some .eof ∧ a.2.rest.length ≤ n) ∧ a.1.err ≠ some .outOfFuel

/-- With this fuel, a value is read into a variable of any type. -/
def TypedFuel (T : τ → GoType τ) (fuel : ℕ) : Prop :=
  ∀ (g : GoType τ) (d : Decoder), 2 * d.rest.length + 1 ≤ fuel →
    Moves d.rest.length (parseValue T fuel g d)

theorem ends_parseUnmarshaler (hf : 2 * d.rest.length + 1 ≤ fuel) :
    Ends (· ≠ .outOfFuel)
      (fun a => if a.1.isSome then a.2.rest.length < d.rest.length else a.2.rest = d.rest)
      (parseUnmarshaler fuel g d) := by
  rw [parseUnmarshaler]
  cases g.unmarshaler with
  | none => simp
  | some unmarshalBencode =>
    dsimp only
    refine ((ends_text fuel).1 { d with buf := [] }).elim (fun _ he => he.ne hf) ?_
    rintro ⟨_ | _, d₁⟩ hd
    · simpa using hd
    · dsimp only at hd ⊢
      split
      · next refusal _ =>
        cases refusal <;> exact Err.noConfusion
      · simpa using hd

theorem storeList_ne {g : GoType τ} {xs : List Val} (h : err ≠ some .outOfFuel) :
    (storeList g err xs).1 ≠ some .outOfFuel := by
  cases hk : g.kind <;> simp only [storeList, hk] <;> try exact h
  all_goals
    split
    · exact h
    · simp
    · simp

/-- What the two loops leave: no more input than there was, and no lack of fuel. -/
def LoopEnds {β : Type} (n : ℕ) : Except Err ((Option Err × β) × Decoder) → Prop :=
  Ends (· ≠ .outOfFuel) fun a => a.2.rest.length ≤ n ∧ a.1.1 ≠ some .outOfFuel

theorem loopEnds_parseItems (hv : ∀ k < fuel, TypedFuel T k) (g : GoType τ) (len : Option ℕ)
    (xs : List Val) (d : Decoder) (hf : 2 * d.rest.length + 2 ≤ fuel) :
    LoopEnds d.rest.length (parseItems T fuel (g, len) xs d) := by
  induction fuel generalizing xs d with
  | zero => omega
  | succ fuel ih =>
    have ih' := ih fun k hk => hv k (by omega)
    rw [parseItems]
    split
    · refine (hv fuel (by omega) g d (by omega)).elim (fun _ he => he) ?_
      rintro ⟨⟨ok, err, x⟩, d₁⟩ hd
      cases err with
      | some e => exact ⟨hd.1.elim le_of_lt And.right, hd.2⟩
      | none =>
        have hlt : d₁.rest.length < d.rest.length := by simpa using hd.1
        cases ok with
        | false => exact ⟨le_of_lt hlt, by simp⟩
        | true => exact (ih' (xs ++ [x]) d₁ (by omega)).imp fun a h => ⟨by omega, h.2⟩
    · refine (valueFuel d (by omega)).elim (fun _ he => he) ?_
      rintro ⟨_ | _, d₁⟩ hlt
      · exact ⟨le_of_lt hlt, by simp⟩
      · dsimp only at hlt
        exact (ih' xs d₁ (by omega)).imp fun a h => ⟨by omega, h.2⟩

theorem ends_getDictField (g : GoType τ) (key : Str) :
    Ends (· ≠ .outOfFuel) (fun f => ∀ v x, Ends (· ≠ .outOfFuel) (fun _ => True) (f.get v x))
      (getDictField g key) := by
  rw [getDictField]
  split
  · exact fun _ _ => trivial
  · split
    · intro v x
      dsimp only
      rw [setField]
      split
      · exact Err.noConfusion
      · split
        · trivial
        · exact Err.noConfusion
    · exact fun _ _ => trivial
  · exact Err.noConfusion

theorem loopEnds_parseDict (hv : ∀ k < fuel, TypedFuel T k) (g : GoType τ) (v : Val) (d : Decoder)
    (hf : 2 * d.rest.length + 2 ≤ fuel) : LoopEnds d.rest.length (parseDict T fuel g v d) := by
  induction fuel generalizing v d with
  | zero => omega
  | succ fuel ih =>
    have ih' := ih fun k hk => hv k (by omega)
    rw [parseDict]
    refine (hv fuel (by omega) .string d (by omega)).elim (fun _ he => he) ?_
    rintro ⟨⟨ok, err, key⟩, d₁⟩ hkey
    cases err with
    | some e => exact ⟨hkey.1.elim le_of_lt And.right, by simp⟩
    | none =>
      have hd₁ : d₁.rest.length < d.rest.length := by simpa using hkey.1
      cases ok with
      | false => exact ⟨le_of_lt hd₁, by simp⟩
      | true =>
        dsimp only
        refine (ends_getDictField g key.text).elim
          (fun e he => ⟨le_of_lt hd₁, by simpa using he⟩) ?_
        rintro ⟨_ | elem, get, ignores⟩ hget <;> dsimp only
        · refine (valueFuel d₁ (by omega)).elim (fun _ he => he) ?_
          rintro ⟨_ | _, d₂⟩ hd₂
          · exact ⟨le_of_lt (lt_trans hd₂ hd₁), by simp⟩
          · dsimp only at hd₂
            exact (ih' v d₂ (by omega)).imp fun a h => ⟨by omega, h.2⟩
        · refine (hv fuel (by omega) (T elem) d₁ (by omega)).elim (fun _ he => he) ?_
          rintro ⟨p, d₂⟩ hp
          have hd₂ : d₂.rest.length ≤ d₁.rest.length := hp.1.elim le_of_lt And.right
          dsimp only
          split
          · exact ⟨le_trans hd₂ (le_of_lt hd₁), by simp⟩
          split
          · have hset : Ends (· ≠ .outOfFuel) (fun _ => True) (get v p.val) := hget v p.val
            exact hset.elim (fun _ he => he) fun v' _ =>
              (ih' v' d₂ (by omega)).imp fun a h => ⟨by omega, h.2⟩
          · exact ⟨le_trans hd₂ (le_of_lt hd₁), by simp⟩

theorem typedFuel (T : τ → GoType τ) (fuel : ℕ) : TypedFuel T fuel := by
  induction fuel using Nat.strong_induction_on with
  | _ fuel ih =>
    intro g d hf
    cases fuel with
    | zero => omega
    | succ fuel =>
      have ih' : ∀ k < fuel, TypedFuel T k := fun k hk => ih k (by omega)
      rw [parseValue]
      refine (ends_parseUnmarshaler hf).elim (fun _ he => he) ?_
      rintro ⟨_ | v, d₁⟩ hu
      · have hd₁ : d₁.rest = d.rest := by simpa using hu
        rw [← hd₁] at hf ⊢
        clear hu hd₁
        dsimp only
        split
        · refine (valueFuel d₁ hf).elim (fun _ he => he) ?_
          rintro ⟨_ | v, d₂⟩ hd₂
          · exact Err.noConfusion
          · exact ⟨.inl hd₂, by simp⟩
        · exact ⟨.inr ⟨rfl, le_refl _⟩, by simp⟩
        · next b r hr _ =>
          rw [hr] at hf ⊢
          simp only [length_cons] at hf
          have hlt : ∀ {n : ℕ}, n ≤ r.length → n < (b :: r).length := by
            intro n hn
            simpa using lt_succ_of_le hn
          split
          · exact ⟨.inl (hlt le_rfl), by simp⟩
          split
          · exact (loopEnds_parseDict ih' (g.indirect T).1 .zero
              { d₁ with rest := r, offset := d₁.offset + 1 } (by dsimp only; omega)).elim
                (fun _ he => he) fun _ h => ⟨.inl (hlt h.1), h.2⟩
          split
          · exact (loopEnds_parseItems ih' (itemType T (g.indirect T).1).1
              (itemType T (g.indirect T).1).2 []
              { d₁ with rest := r, offset := d₁.offset + 1 } (by dsimp only; omega)).elim
                (fun _ he => he) fun _ h => ⟨.inl (hlt h.1), storeList_ne h.2⟩
          split
          · exact reads_parseInt.shrinks.elim
                (fun _ he => he) fun _ h => ⟨.inl (hlt (le_of_lt h.1)), h.2⟩
          split
          · exact (reads_parseString T).shrinks.elim
                (fun _ he => he) fun _ h => ⟨.inl (hlt (le_of_lt h.1)), h.2⟩
          · exact Err.noConfusion
      · exact ⟨.inl (by simpa using hu), by simp⟩

/-! ## More fuel -/

/-- `y` is `x`, unless `x` ran out of fuel. -/
def Extends (x y : Except Err α) : Prop := x = .error .outOfFuel ∨ y = x

theorem Extends.rfl {x : Except Err α} : Extends x x := .inr (Eq.refl x)

@[elab_as_elim]
theorem Extends.elim {x y : Except Err α} {motive : Except Err α → Except Err α → Prop}
    (h : Extends x y) (out : ∀ y, motive (.error .outOfFuel) y) (same : ∀ x, motive x x) :
    motive x y := by
  rcases h with rfl | rfl
  · exact out y
  · exact same _

theorem extends_interface (fuel : ℕ) :
    (∀ d, Extends (parseValueInterface fuel d) (parseValueInterface (fuel + 1) d)) ∧
    (∀ dict last d, Extends (parseDictInterface fuel dict last d)
      (parseDictInterface (fuel + 1) dict last d)) ∧
    ∀ list d, Extends (parseListInterface fuel list d) (parseListInterface (fuel + 1) list d) := by
  induction fuel with
  | zero => exact ⟨fun _ => .inl rfl, fun _ _ _ => .inl rfl, fun _ _ => .inl rfl⟩
  | succ fuel ih =>
    obtain ⟨value, dictLoop, listLoop⟩ := ih
    refine ⟨fun d => ?_, fun dict last d => ?_, fun list d => ?_⟩
    · rw [parseValueInterface, parseValueInterface]
      split
      · exact .rfl
      · dsimp only
        split
        · exact .rfl
        split
        · exact (dictLoop [] none _).elim (fun _ => .inl rfl) fun _ => .rfl
        split
        · exact (listLoop [] _).elim (fun _ => .inl rfl) fun _ => .rfl
        · exact .rfl
    · rw [parseDictInterface, parseDictInterface]
      refine (value d).elim (fun _ => .inl rfl) ?_
      rintro (e | ⟨_ | (_ | key | _ | _), d'⟩) <;> try exact .rfl
      dsimp only
      split
      · exact .rfl
      refine (value d').elim (fun _ => .inl rfl) ?_
      rintro (e | ⟨_ | v, d''⟩)
      · exact .rfl
      · exact .rfl
      · exact dictLoop _ _ d''
    · rw [parseListInterface, parseListInterface]
      refine (value d).elim (fun _ => .inl rfl) ?_
      rintro (e | ⟨_ | v, d'⟩)
      · exact .rfl
      · exact .rfl
      · exact listLoop _ d'

theorem extends_text (fuel : ℕ) :
    (∀ d, Extends (readOneValue fuel d) (readOneValue (fuel + 1) d)) ∧
    ∀ d, Extends (readValues fuel d) (readValues (fuel + 1) d) := by
  induction fuel with
  | zero => exact ⟨fun _ => .inl rfl, fun _ => .inl rfl⟩
  | succ fuel ih =>
    obtain ⟨value, loop⟩ := ih
    refine ⟨fun d => ?_, fun d => ?_⟩
    · rw [readOneValue, readOneValue]
      split
      · exact .rfl
      · split
        · exact .rfl
        · dsimp only
          split
          · exact (loop _).elim (fun _ => .inl rfl) fun _ => .rfl
          · exact .rfl
    · rw [readValues, readValues]
      refine (value d).elim (fun _ => .inl rfl) ?_
      rintro (e | ⟨_ | _, d'⟩)
      · exact .rfl
      · exact .rfl
      · exact loop d'

theorem extends_parseUnmarshaler (fuel : ℕ) :
    Extends (parseUnmarshaler fuel g d) (parseUnmarshaler (fuel + 1) g d) := by
  rw [parseUnmarshaler, parseUnmarshaler]
  cases g.unmarshaler with
  | none => exact .rfl
  | some f =>
    dsimp only
    exact ((extends_text fuel).1 { d with buf := [] }).elim (fun _ => .inl rfl) fun _ => .rfl

theorem extends_typed (T : τ → GoType τ) (fuel : ℕ) :
    (∀ g d, Extends (parseValue T fuel g d) (parseValue T (fuel + 1) g d)) ∧
    (∀ g v d, Extends (parseDict T fuel g v d) (parseDict T (fuel + 1) g v d)) ∧
    ∀ item xs d, Extends (parseItems T fuel item xs d) (parseItems T (fuel + 1) item xs d) := by
  induction fuel with
  | zero =>
    refine ⟨fun _ _ => .inl ?_, fun _ _ _ => .inl ?_, fun _ _ _ => .inl ?_⟩
    · rw [parseValue]
    · rw [parseDict]
    · rw [parseItems]
  | succ fuel ih =>
    obtain ⟨value, dictLoop, itemLoop⟩ := ih
    refine ⟨fun g d => ?_, fun g v d => ?_, fun item xs d => ?_⟩
    · rw [parseValue, parseValue]
      dsimp only
      refine (extends_parseUnmarshaler (fuel + 1)).elim (fun _ => .inl rfl) ?_
      rintro (e | ⟨_ | v, d'⟩)
      · exact .rfl
      · dsimp only
        split
        · exact ((extends_interface (fuel + 1)).1 d').elim (fun _ => .inl rfl) fun _ => .rfl
        · exact .rfl
        · split
          · exact .rfl
          split
          · exact (dictLoop (g.indirect T).1 .zero _).elim (fun _ => .inl rfl) fun _ => .rfl
          split
          · exact (itemLoop (itemType T (g.indirect T).1) [] _).elim (fun _ => .inl rfl)
              fun _ => .rfl
          · exact .rfl
      · exact .rfl
    · rw [parseDict, parseDict]
      refine (value .string d).elim (fun _ => .inl rfl) ?_
      rintro (e | ⟨⟨_ | _, _ | e, key⟩, d'⟩) <;> try exact .rfl
      dsimp only
      rcases getDictField g key.text with e | ⟨_ | elem, get, ignores⟩
      · exact .rfl
      · dsimp only
        refine ((extends_interface (fuel + 1)).1 d').elim (fun _ => .inl rfl) ?_
        rintro (e | ⟨_ | x, d''⟩)
        · exact .rfl
        · exact .rfl
        · exact dictLoop g v d''
      · dsimp only
        refine (value (T elem) d').elim (fun _ => .inl rfl) ?_
        rintro (e | ⟨p, d''⟩)
        · exact .rfl
        · dsimp only
          split
          · exact .rfl
          · split
            · split
              · exact .rfl
              · exact dictLoop g _ d''
            · exact .rfl
    · obtain ⟨g, len⟩ := item
      rw [parseItems, parseItems]
      split
      · refine (value g d).elim (fun _ => .inl rfl) ?_
        rintro (e | ⟨⟨_ | _, _ | e, x⟩, d'⟩) <;> try exact .rfl
        exact itemLoop _ _ d'
      · refine ((extends_interface (fuel + 1)).1 d).elim (fun _ => .inl rfl) ?_
        rintro (e | ⟨_ | x, d'⟩)
        · exact .rfl
        · exact .rfl
        · exact itemLoop _ _ d'

/-- **Fuel does not matter**, if there is enough. -/
theorem parseValue_fuel (T : τ → GoType τ)
    (hf : 2 * d.rest.length + 1 ≤ fuel) :
    parseValue T fuel g d = parseValue T (2 * d.rest.length + 1) g d := by
  induction fuel, hf using le_induction with
  | base => rfl
  | succ fuel hf ih =>
    rw [← ih]
    refine ((extends_typed T fuel).1 g d).resolve_left fun h => ?_
    have hmoves := typedFuel T fuel g d hf
    rw [h] at hmoves
    exact hmoves rfl

/-- **`Decode` always returns**: the recursion never outruns the input. -/
theorem decode_ne_outOfFuel (T : τ → GoType τ) (g : GoType τ) (d : Decoder) :
    decode T g d ≠ .error .outOfFuel := by
  have h := typedFuel T (2 * d.rest.length + 2) g d (by omega)
  rw [decode]
  split
  · simp
  · next e _ heq =>
    rw [heq] at h
    have he : e ≠ .outOfFuel := h
    simpa using he
  · next heq =>
    rw [heq] at h
    simpa using h.2
  · simp
  · simp

end ReliableBT.Bencode.Decoder
