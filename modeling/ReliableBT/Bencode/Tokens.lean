import ReliableBT.Bencode.Decoder

/-!
# What the decoder reads at one token

The functions of the decoder below the level of values, on an input that is known: up to the
separator when there is one (`readUntil_eq`), and to the end when there is none
(`readUntil_none`). The texts that `checkBufferedInt` and the readers of numbers both let through
are the canonical ones (`formatInt_of_checked`).

Results:
* `parseIntInterface_formatInt`, `parseStringInterface_reflectString`: a token is read back.
* `parseIntInterface_sound`, `parseStringInterface_sound`: what is read is a canonical token.
-/

open List Int Except

namespace ReliableBT.Bencode

open Decimal

/-! ## Separators -/

namespace Decoder

theorem readUntilLoop_append {sep : UInt8} {s : Str} (hs : sep ∉ s) (r x : Str) (o : ℕ) (b : Str)
    (m : Int64) :
    readUntilLoop sep (s ++ sep :: r) ⟨x, o, b, m⟩ = .ok ⟨r, o + (s.length + 1), b ++ s, m⟩ := by
  induction s generalizing x o b with
  | nil => simp [readUntilLoop]
  | cons c s ih =>
    obtain ⟨hc, hs⟩ : sep ≠ c ∧ sep ∉ s := by simpa using hs
    rw [cons_append, readUntilLoop, if_neg (Ne.symm hc), ih hs]
    simp [Nat.add_assoc, Nat.add_comm 1]

/-- **The separator is found.** Everything before it goes to the buffer. -/
theorem readUntil_eq {sep : UInt8} {s : Str} (hs : sep ∉ s) (r : Str) (o : ℕ) (b : Str)
    (m : Int64) :
    readUntil sep ⟨s ++ sep :: r, o, b, m⟩ = .ok ⟨r, o + (s.length + 1), b ++ s, m⟩ :=
  readUntilLoop_append hs r _ o b m

/-- **There is no separator.** The end of the input is a syntax error. -/
theorem readUntil_none {sep : UInt8} {d : Decoder} (hs : sep ∉ d.rest) :
    ∃ o, readUntil sep d = .error (.syntaxError o .unexpectedEOF) := by
  have h : ∀ (s : Str) (d : Decoder), sep ∉ s →
      ∃ o, readUntilLoop sep s d = .error (.syntaxError o .unexpectedEOF) := by
    intro s
    induction s with
    | nil => exact fun d _ => ⟨d.offset, rfl⟩
    | cons c s ih =>
      intro d hs
      obtain ⟨hc, hs⟩ : sep ≠ c ∧ sep ∉ s := by simpa using hs
      rw [readUntilLoop, if_neg (Ne.symm hc)]
      exact ih _ hs
  exact h d.rest d hs

end Decoder

theorem exists_split (sep : UInt8) (s : Str) : sep ∉ s ∨ ∃ u r, sep ∉ u ∧ s = u ++ sep :: r := by
  by_cases h : sep ∈ s
  · obtain ⟨u, r, he, hu⟩ := eq_append_cons_of_mem h
    exact .inr ⟨u, r, hu, he⟩
  · exact .inl h

/-! ## Canonical numerals -/

variable {b : UInt8} {u : Str} {n : ℕ} {s s' r r' : Str}

theorem notMem_formatNat (h : ¬ isDigit b) (n : ℕ) : b ∉ formatNat n :=
  fun hb => h (all_eq_true.mp (all_formatNat n) b hb)

theorem formatNat_cons (n : ℕ) : ∃ b u, formatNat n = b :: u ∧ isDigit b := by
  obtain ⟨b, u, hbu⟩ := exists_cons_of_ne_nil (formatNat_ne_nil n)
  have hall := all_formatNat n
  rw [hbu, all_cons, Bool.and_eq_true] at hall
  exact ⟨b, u, hbu, hall.1⟩

theorem colon_notMem (h : formatNat n = b :: u) : 58 ∉ u := by
  have hnot := notMem_formatNat (b := 58) (by decide) n
  rw [h] at hnot
  exact fun hm => hnot (mem_cons_of_mem _ hm)

theorem parseInt_length (h : formatNat n = b :: u) (hn : n < 2 ^ 63) :
    Decimal.parseInt (b :: u) = .ok n := by
  have := parseInt_formatInt n
  rwa [formatInt, if_neg (by omega), natAbs_natCast, h, if_pos (by omega)] at this

theorem notMem_formatInt (h : ¬ isDigit b) (h' : b ≠ 45) (n : ℤ) : b ∉ formatInt n := by
  rw [formatInt]
  split
  · simp [h', notMem_formatNat h]
  · exact notMem_formatNat h _

/-! ## Texts are told apart -/

theorem reflectString_head {c : UInt8} (hc : isDigit c = false) (s r r' : Str) :
    c :: r ≠ reflectString s ++ r' := by
  intro h
  obtain ⟨b, u, hbu, hb⟩ := formatNat_cons s.length
  rw [reflectString, hbu] at h
  simp only [cons_append, cons.injEq] at h
  rw [← h.1, hc] at hb
  cases hb

theorem split_inj {sep : UInt8} (hs : sep ∉ s) (hs' : sep ∉ s')
    (h : s ++ sep :: r = s' ++ sep :: r') : s = s' ∧ r = r' := by
  induction s generalizing s' with
  | nil =>
    cases s' with
    | nil => exact ⟨rfl, (cons.inj h).2⟩
    | cons c s' =>
      rw [nil_append, cons_append, cons.injEq] at h
      exact absurd (h.1 ▸ mem_cons_self ..) hs'
  | cons c s ih =>
    cases s' with
    | nil =>
      rw [nil_append, cons_append, cons.injEq] at h
      exact absurd (h.1 ▸ mem_cons_self ..) hs
    | cons c' s' =>
      rw [cons_append, cons_append, cons.injEq] at h
      obtain ⟨rfl, h⟩ := h
      obtain ⟨rfl, hr⟩ := ih (fun hm => hs (mem_cons_of_mem _ hm))
        (fun hm => hs' (mem_cons_of_mem _ hm)) h
      exact ⟨rfl, hr⟩

theorem formatNat_injective : Function.Injective formatNat :=
  Function.LeftInverse.injective value_formatNat

theorem formatInt_injective : Function.Injective formatInt := by
  intro n n' h
  have hn := bigSetString_formatInt n
  rw [h, bigSetString_formatInt] at hn
  exact (Option.some.inj hn).symm

theorem reflectString_append_inj (h : reflectString s ++ r = reflectString s' ++ r') :
    s = s' ∧ r = r' := by
  simp only [reflectString, append_assoc, cons_append] at h
  have h58 : ¬ isDigit 58 := by decide
  obtain ⟨hlen, h⟩ := split_inj (notMem_formatNat h58 _) (notMem_formatNat h58 _) h
  exact append_inj h (formatNat_injective hlen)

/-- Of a value whose text is told apart from every other one. -/
def Distinct (v : Value) : Prop :=
  ∀ v' r r', marshal v ++ r = marshal v' ++ r' → v = v' ∧ r = r'

theorem marshal_ne_end (v : Value) (r r' : Str) : marshal v ++ r ≠ 101 :: r' := by
  intro h
  obtain ⟨b, s, hb, h101, -⟩ := marshal_cons v
  rw [hb, cons_append, cons.injEq] at h
  exact h101 h.1

theorem marshalItems_append_inj {xs : List Value} (hxs : ∀ x ∈ xs, Distinct x) {xs' : List Value}
    (h : marshalItems xs ++ 101 :: r = marshalItems xs' ++ 101 :: r') : xs = xs' ∧ r = r' := by
  induction xs generalizing xs' with
  | nil =>
    cases xs' with
    | nil => exact ⟨rfl, (cons.inj h).2⟩
    | cons x' xs' =>
      rw [marshalItems, marshalItems, append_assoc] at h
      exact absurd h.symm (marshal_ne_end x' _ _)
  | cons x xs ih =>
    cases xs' with
    | nil =>
      rw [marshalItems, marshalItems, append_assoc] at h
      exact absurd h (marshal_ne_end x _ _)
    | cons x' xs' =>
      rw [marshalItems, marshalItems, append_assoc, append_assoc] at h
      obtain ⟨rfl, htail⟩ := hxs x (mem_cons_self ..) _ _ _ h
      obtain ⟨rfl, hr⟩ := ih (fun y hy => hxs y (mem_cons_of_mem _ hy)) htail
      exact ⟨rfl, hr⟩

theorem marshalEntries_append_inj {es : List (Str × Value)} (hes : ∀ e ∈ es, Distinct e.2)
    {es' : List (Str × Value)}
    (h : marshalEntries es ++ 101 :: r = marshalEntries es' ++ 101 :: r') :
    es = es' ∧ r = r' := by
  induction es generalizing es' with
  | nil =>
    cases es' with
    | nil => exact ⟨rfl, (cons.inj h).2⟩
    | cons e' es' =>
      rw [marshalEntries, marshalEntries, append_assoc] at h
      exact absurd h.symm (marshal_ne_end (.str e'.1) _ _)
  | cons e es ih =>
    cases es' with
    | nil =>
      rw [marshalEntries, marshalEntries, append_assoc] at h
      exact absurd h (marshal_ne_end (.str e.1) _ _)
    | cons e' es' =>
      rw [marshalEntries, marshalEntries] at h
      simp only [append_assoc] at h
      obtain ⟨hkey, h⟩ := reflectString_append_inj h
      obtain ⟨hval, h⟩ := hes e (mem_cons_self ..) _ _ _ h
      obtain ⟨rfl, hr⟩ := ih (fun y hy => hes y (mem_cons_of_mem _ hy)) h
      exact ⟨by rw [Prod.ext hkey hval], hr⟩

/-- **Unambiguous.** The text of a value determines it, and where it ends. -/
theorem marshal_append_inj (v : Value) : Distinct v := by
  induction v
  all_goals
    intro v' r r' h
  case int n =>
    cases v' with
    | int n' =>
      simp only [marshal, cons_append, append_assoc, nil_append, cons.injEq, true_and] at h
      have h101 : ∀ n : ℤ, 101 ∉ formatInt n := notMem_formatInt (by decide) (by decide)
      obtain ⟨hn, hr⟩ := split_inj (h101 _) (h101 _) h
      have hn := formatInt_injective hn
      rw [← Number.ofInt_toInt n, hn, Number.ofInt_toInt]
      exact ⟨rfl, hr⟩
    | str s => exact absurd h (reflectString_head (by decide) s _ _)
    | list xs => simp [marshal] at h
    | dict es => simp [marshal] at h
  case str s =>
    cases v' with
    | str s' =>
      obtain ⟨rfl, hr⟩ := reflectString_append_inj h
      exact ⟨rfl, hr⟩
    | int n => exact absurd h.symm (reflectString_head (by decide) s _ _)
    | list xs => exact absurd h.symm (reflectString_head (by decide) s _ _)
    | dict es => exact absurd h.symm (reflectString_head (by decide) s _ _)
  case list xs ih =>
    cases v' with
    | list xs' =>
      simp only [marshal, cons_append, append_assoc, nil_append, cons.injEq, true_and] at h
      obtain ⟨rfl, hr⟩ := marshalItems_append_inj ih h
      exact ⟨rfl, hr⟩
    | str s => exact absurd h (reflectString_head (by decide) s _ _)
    | int n => simp [marshal] at h
    | dict es => simp [marshal] at h
  case dict es ih =>
    cases v' with
    | dict es' =>
      simp only [marshal, cons_append, append_assoc, nil_append, cons.injEq, true_and] at h
      obtain ⟨rfl, hr⟩ := marshalEntries_append_inj ih h
      exact ⟨rfl, hr⟩
    | str s => exact absurd h (reflectString_head (by decide) s _ _)
    | int n => simp [marshal] at h
    | list xs => simp [marshal] at h

namespace Decoder

theorem checkBufferedInt_formatNat (n : ℕ) : checkBufferedInt (formatNat n) := by
  by_cases h : n = 0
  · subst h
    rfl
  · obtain ⟨b, s, hbs, hb⟩ := head_formatNat h
    have h45 : b ≠ 45 := by
      rintro rfl
      exact absurd hb.1 (by decide)
    rw [hbs, checkBufferedInt]
    split
    · rfl
    · simp [h45, hb.1, hb.2]

theorem checkBufferedInt_formatInt (n : ℤ) : checkBufferedInt (formatInt n) := by
  rw [formatInt]
  by_cases h : n < 0
  · obtain ⟨b, s, hbs, hb⟩ := head_formatNat (n := n.natAbs) (by omega)
    rw [if_pos h, hbs, checkBufferedInt]
    simp [hb.1, hb.2]
  · rw [if_neg h]
    exact checkBufferedInt_formatNat _

variable {s buf : Str} {d d' : Decoder} {b : UInt8} {r : Str} {o : ℕ} {m : Int64} {u rest : Str}
  {n : ℤ}

/-- **Canonical numerals.** A sign and digits that pass `checkBufferedInt` are the text of the
number they stand for. -/
theorem formatInt_of_checked (hc : checkBufferedInt s) (hne : (splitSign s).2 ≠ [])
    (hall : (splitSign s).2.all isDigit) :
    formatInt (if (splitSign s).1 then -(value (splitSign s).2 : ℤ) else value (splitSign s).2)
      = s := by
  cases s with
  | nil => exact absurd rfl hne
  | cons b s =>
    by_cases h43 : b = 43
    · -- a plus sign never passes: alone it has no digits, before digits it is a wrong first digit
      subst h43
      rw [splitSign, if_pos rfl] at hne
      obtain ⟨c, s, rfl⟩ := exists_cons_of_ne_nil hne
      simp [checkBufferedInt] at hc
    · by_cases h45 : b = 45
      · subst h45
        simp only [splitSign, if_neg h43, if_true] at hne hall ⊢
        obtain ⟨c, s, rfl⟩ := exists_cons_of_ne_nil hne
        have hc : 49 ≤ c.toNat ∧ c.toNat ≤ 57 := by simpa [checkBufferedInt] using hc
        rw [all_cons, Bool.and_eq_true] at hall
        have hfmt := formatNat_value hc hall.2
        have hpos : value (c :: s) ≠ 0 := by
          intro h0
          rw [h0] at hfmt
          obtain ⟨rfl, -⟩ : (48 : UInt8) = c ∧ [] = s := by simpa [formatNat] using hfmt
          exact absurd hc.1 (by decide)
        rw [formatInt, if_pos (by omega), natAbs_neg, natAbs_natCast, hfmt]
      · simp only [splitSign, if_neg h43, if_neg h45, Bool.false_eq_true, if_false] at hall ⊢
        rw [formatInt, if_neg (by omega), natAbs_natCast]
        rw [all_cons, Bool.and_eq_true] at hall
        cases s with
        | nil =>
          -- one digit, which may be a zero
          by_cases h0 : b = 48
          · subst h0
            rfl
          · have hb := hall.1
            simp only [isDigit, decide_eq_true_eq] at hb
            have h48 : b.toNat ≠ 48 := fun h => h0 (UInt8.toNat_inj.mp h)
            exact formatNat_value ⟨by omega, hb.2⟩ rfl
        | cons c s =>
          have hb : 49 ≤ b.toNat ∧ b.toNat ≤ 57 := by
            simpa [checkBufferedInt, h45] using hc
          exact formatNat_value hb hall.2

/-! ## Numerals after other text -/

/-- The texts that a successful call leaves in the buffer: none, or the one of a value. -/
def Raw (buf : Str) : Prop := buf = [] ∨ ∃ v, buf = marshal v

theorem Raw.nil : Raw [] := .inl rfl

theorem marshal_not_numeral (v : Value) (s : Str) :
    splitSign (marshal v ++ s) = (false, marshal v ++ s) ∧
      (marshal v ++ s).all isDigit = false := by
  constructor
  · obtain ⟨b, u, h, -, hb⟩ := marshal_cons v
    have h43 : b ≠ 43 := by rintro rfl; revert hb; decide
    have h45 : b ≠ 45 := by rintro rfl; revert hb; decide
    rw [h, cons_append, splitSign, if_neg h43, if_neg h45]
  · have hmem : ∃ b ∈ marshal v, isDigit b = false := by
      cases v with
      | int n => exact ⟨105, by simp [marshal], rfl⟩
      | str s => exact ⟨58, by simp [marshal, reflectString], rfl⟩
      | list xs => exact ⟨108, by simp [marshal], rfl⟩
      | dict es => exact ⟨100, by simp [marshal], rfl⟩
    obtain ⟨b, hb, hd⟩ := hmem
    exact all_eq_false.mpr ⟨b, mem_append_left _ hb, by simp [hd]⟩

/-- **No numeral.** After the text of a value, nothing is read as a number. -/
theorem not_numeral (h : Raw buf) (hne : buf ≠ []) (s : Str) :
    (∃ e, Decimal.parseInt (buf ++ s) = .error e) ∧ (∃ e, parseUint (buf ++ s) = .error e) ∧
      bigSetString (buf ++ s) = none := by
  obtain ⟨v, rfl⟩ := h.resolve_left hne
  obtain ⟨hsign, hall⟩ := marshal_not_numeral v s
  refine ⟨?_, ?_, ?_⟩
  · cases hp : Decimal.parseInt (marshal v ++ s) with
    | error e => exact ⟨e, rfl⟩
    | ok n =>
      have := (parseInt_ok hp).2.1
      rw [hsign, hall] at this
      cases this
  · cases hp : parseUint (marshal v ++ s) with
    | error e => exact ⟨e, rfl⟩
    | ok n =>
      have := (parseUint_ok hp).2.1
      rw [hall] at this
      cases this
  · cases hp : bigSetString (marshal v ++ s) with
    | none => rfl
    | some n =>
      have := (bigSetString_some hp).2.1
      rw [hsign, hall] at this
      cases this

/-! ## Integers -/

theorem readInt_eq (hs : 101 ∉ s) (r : Str) (o : ℕ) (b : Str) (m : Int64) :
    readInt ⟨s ++ 101 :: r, o, b, m⟩ =
      .ok (if checkBufferedInt (b ++ s) then none else some .invalidLeadingDigit,
        ⟨r, o + (s.length + 1), b ++ s, m⟩) := by
  rw [readInt, readUntil_eq hs]
  rfl

theorem readInt_none (hs : 101 ∉ d.rest) :
    ∃ o, readInt d = .error (.syntaxError o .unexpectedEOF) := by
  obtain ⟨o, ho⟩ := readUntil_none hs
  exact ⟨o, by rw [readInt, ho]; rfl⟩

/-- What is left, and the offset, after `s` has been read; the buffer is as it was. -/
structure Consumed (d : Decoder) (s : Str) (d' : Decoder) : Prop where
  rest : d.rest = s ++ d'.rest
  offset : d'.offset = d.offset + s.length
  buf : d'.buf = d.buf
  maxStrLen : d'.maxStrLen = d.maxStrLen

theorem Consumed.trans {d'' : Decoder} {s' : Str} (h : Consumed d s d') (h' : Consumed d' s' d'') :
    Consumed d (s ++ s') d'' where
  rest := by rw [h.rest, h'.rest, append_assoc]
  offset := by rw [h'.offset, h.offset, length_append, Nat.add_assoc]
  buf := h'.buf.trans h.buf
  maxStrLen := h'.maxStrLen.trans h.maxStrLen

theorem Consumed.cons (h : Consumed ⟨r, o + 1, buf, m⟩ s d') :
    Consumed ⟨b :: r, o, buf, m⟩ (b :: s) d' where
  rest := congrArg (b :: ·) h.rest
  offset := by
    have := h.offset
    simp only [length_cons] at this ⊢
    omega
  buf := h.buf
  maxStrLen := h.maxStrLen

theorem parseIntInterface_formatInt (n : Number) (r : Str) (o : ℕ) (m : Int64) :
    parseIntInterface ⟨formatInt n.toInt ++ 101 :: r, o, [], m⟩ =
      .ok (n, ⟨r, o + ((formatInt n.toInt).length + 1), [], m⟩) := by
  have hs : 101 ∉ formatInt n.toInt := notMem_formatInt (by decide) (by decide) _
  rw [parseIntInterface, readInt_eq hs, nil_append, if_pos (checkBufferedInt_formatInt _)]
  by_cases h : -2 ^ 63 ≤ n.toInt ∧ n.toInt < 2 ^ 63
  · simp only [bind, Except.bind, parseInt_formatInt, if_pos h, Number.ofInt_toInt]
    rfl
  · simp only [bind, Except.bind, parseInt_formatInt, if_neg h, bigSetString_formatInt,
      Number.ofInt_toInt]
    rfl

theorem parseIntInterface_raw (h : Raw d.buf) (hne : d.buf ≠ []) :
    ∃ e, parseIntInterface d = .error e := by
  obtain ⟨rest, o, buf, m⟩ := d
  rcases exists_split 101 rest with hs | ⟨s, r, hs, rfl⟩
  · obtain ⟨o', ho⟩ := readInt_none (d := ⟨rest, o, buf, m⟩) hs
    rw [parseIntInterface, ho]
    exact ⟨_, rfl⟩
  · obtain ⟨⟨e, he⟩, -, hbig⟩ := not_numeral h hne s
    rw [parseIntInterface, readInt_eq hs]
    by_cases hc : checkBufferedInt (buf ++ s)
    · rw [if_pos hc]
      cases e <;> simp only [bind, Except.bind, he, hbig] <;> exact ⟨_, rfl⟩
    · rw [if_neg hc]
      exact ⟨_, rfl⟩

theorem parseIntInterface_sound {n : Number} (hraw : Raw d.buf)
    (h : parseIntInterface d = .ok (n, d')) : Consumed d (formatInt n.toInt ++ [101]) d' := by
  have hbuf : d.buf = [] := by
    by_contra hne
    obtain ⟨e, he⟩ := parseIntInterface_raw hraw hne
    rw [he] at h
    cases h
  obtain ⟨rest, o, b, m⟩ := d
  subst hbuf
  rcases exists_split 101 rest with hs | ⟨s, r, hs, rfl⟩
  · obtain ⟨o', ho⟩ := readInt_none (d := ⟨rest, o, [], m⟩) hs
    rw [parseIntInterface, ho] at h
    cases h
  · rw [parseIntInterface, readInt_eq hs, nil_append] at h
    by_cases hc : checkBufferedInt s
    · have hfin : ∀ i : ℤ, formatInt i = s →
          Consumed ⟨s ++ 101 :: r, o, [], m⟩ (formatInt (Number.ofInt i).toInt ++ [101])
            ⟨r, o + (s.length + 1), [], m⟩ := by
        intro i hi
        rw [Number.toInt_ofInt, hi]
        exact ⟨by simp, by simp, rfl, rfl⟩
      simp only [hc, if_true, bind, Except.bind] at h
      split at h
      · next i hi =>
        obtain ⟨hne, hall, rfl⟩ := parseInt_ok hi
        obtain ⟨rfl, rfl⟩ := Prod.mk.inj (ok.inj h)
        exact hfin _ (formatInt_of_checked hc hne hall)
      · split at h
        · cases h
        · next i hi =>
          obtain ⟨hne, hall, rfl⟩ := bigSetString_some hi
          obtain ⟨rfl, rfl⟩ := Prod.mk.inj (ok.inj h)
          exact hfin _ (formatInt_of_checked hc hne hall)
      · cases h
    · simp only [hc] at h
      cases h

/-! ## Strings -/

theorem parseStringLength_eq (hs : 58 ∉ s) (r : Str) (o : ℕ) (b : Str) (m : Int64) :
    parseStringLength ⟨s ++ 58 :: r, o, b, m⟩ =
      if checkBufferedInt (b ++ s) then
        match Decimal.parseInt (b ++ s) with
        | .error e => .error (.syntaxError (o - 1) (.number e))
        | .ok length =>
          if strLimit m < length then
            .ok (.error (.exceedsLimit length), ⟨r, o + (s.length + 1), [], m⟩)
          else .ok (.ok length, ⟨r, o + (s.length + 1), [], m⟩)
      else .ok (.error .invalidLeadingDigit, ⟨r, o + (s.length + 1), b ++ s, m⟩) := by
  rw [parseStringLength, readUntil_eq hs]
  rfl

theorem parseStringLength_none (hs : 58 ∉ d.rest) :
    ∃ o, parseStringLength d = .error (.syntaxError o .unexpectedEOF) := by
  obtain ⟨o, ho⟩ := readUntil_none hs
  exact ⟨o, by rw [parseStringLength, ho]; rfl⟩

theorem strLimit_lt (m : Int64) : strLimit m < 2 ^ 63 := by
  rw [strLimit]
  split
  · decide
  · exact m.toInt_lt

/-- **The length of a string**, at the text that `reflectString` writes. -/
theorem parseStringLength_formatNat {n : ℕ} (h : formatNat n = b :: u) (r : Str) (o : ℕ)
    (hn : n ≤ strLimit m) :
    parseStringLength ⟨u ++ 58 :: r, o, [b], m⟩ = .ok (.ok n, ⟨r, o + (u.length + 1), [], m⟩) := by
  have h63 : (n : ℤ) < 2 ^ 63 := lt_of_le_of_lt hn (strLimit_lt m)
  rw [parseStringLength_eq (colon_notMem h), singleton_append, ← h,
    if_pos (checkBufferedInt_formatNat n), h, parseInt_length h (by omega)]
  simp only [if_neg (not_lt.mpr hn)]

theorem parseStringInterface_raw (h : Raw buf) (hne : buf ≠ []) (b : UInt8) (rest : Str) (o : ℕ)
    (m : Int64) : ∃ e, parseStringInterface ⟨rest, o, buf ++ [b], m⟩ = .error e := by
  rcases exists_split 58 rest with hu | ⟨u, r, hu, rfl⟩
  · obtain ⟨o', ho⟩ := parseStringLength_none (d := ⟨rest, o, buf ++ [b], m⟩) hu
    rw [parseStringInterface, ho]
    exact ⟨_, rfl⟩
  · obtain ⟨⟨e, he⟩, -, -⟩ := not_numeral h hne (b :: u)
    rw [parseStringInterface, parseStringLength_eq hu, append_assoc, singleton_append, he]
    by_cases hc : checkBufferedInt (buf ++ b :: u)
    · rw [if_pos hc]
      exact ⟨_, rfl⟩
    · rw [if_neg hc]
      exact ⟨_, rfl⟩

theorem readBytes_append (s r : Str) (o : ℕ) (b : Str) (m : Int64) :
    readBytes s.length ⟨s ++ r, o, b, m⟩ = .ok (s, ⟨r, o + s.length, b, m⟩) := by
  rw [readBytes, if_pos (by simp)]
  simp

/-- **A string is read back.** Its first digit is in the buffer already. -/
theorem parseStringInterface_reflectString (h : formatNat s.length = b :: u) (r : Str) (o : ℕ)
    (hs : s.length ≤ strLimit m) :
    parseStringInterface ⟨u ++ 58 :: (s ++ r), o, [b], m⟩ =
      .ok (s, ⟨r, o + (u.length + 1) + s.length, [], m⟩) := by
  rw [parseStringInterface, parseStringLength_formatNat h _ _ hs]
  exact readBytes_append s r _ _ _

/-- **The length of a string** is read only from the numeral that `reflectString` writes. -/
theorem parseStringLength_sound (h : parseStringLength ⟨rest, o, [b], m⟩ = .ok (.ok n, d')) :
    ∃ u r, rest = u ++ 58 :: r ∧ formatInt n = b :: u ∧ n ≤ strLimit m ∧
      d' = ⟨r, o + (u.length + 1), [], m⟩ := by
  rcases exists_split 58 rest with hu | ⟨u, r, hu, rfl⟩
  · obtain ⟨o', ho⟩ := parseStringLength_none (d := ⟨rest, o, [b], m⟩) hu
    rw [ho] at h
    cases h
  · rw [parseStringLength_eq hu, singleton_append] at h
    by_cases hc : checkBufferedInt (b :: u)
    · rw [if_pos hc] at h
      cases hp : Decimal.parseInt (b :: u) with
      | error e =>
        rw [hp] at h
        cases h
      | ok k =>
        obtain ⟨hne, hall, hk⟩ := parseInt_ok hp
        have hfmt := formatInt_of_checked hc hne hall
        rw [← hk] at hfmt
        simp only [hp] at h
        by_cases hlim : strLimit m < k
        · rw [if_pos hlim] at h
          cases h
        · rw [if_neg hlim] at h
          cases h
          exact ⟨u, r, rfl, hfmt, not_lt.mp hlim, rfl⟩
    · rw [if_neg hc] at h
      cases h

theorem consumed_reflectString (hfmt : formatInt n = b :: u) (hn : 0 ≤ n) (hr : n.toNat ≤ r.length)
    (o : ℕ) (m : Int64) :
    Consumed ⟨b :: (u ++ 58 :: r), o, [], m⟩ (reflectString (r.take n.toNat))
      ⟨r.drop n.toNat, o + 1 + (u.length + 1) + n.toNat, [], m⟩ := by
  have hlen : (r.take n.toNat).length = n.toNat := by
    rw [length_take]
    omega
  have href : reflectString (r.take n.toNat) = b :: (u ++ 58 :: r.take n.toNat) := by
    rw [formatInt, if_neg (by omega)] at hfmt
    rw [reflectString, hlen, ← natAbs_of_nonneg hn, toNat_natCast, hfmt]
    simp
  rw [href]
  refine ⟨by simp, ?_, rfl, rfl⟩
  simp only [length_cons, length_append, hlen]
  omega

theorem parseStringInterface_sound (hraw : Raw buf)
    (h : parseStringInterface ⟨rest, o + 1, buf ++ [b], m⟩ = .ok (s, d')) :
    s.length ≤ strLimit m ∧ Consumed ⟨b :: rest, o, buf, m⟩ (reflectString s) d' := by
  obtain rfl : buf = [] := by
    by_contra hne
    obtain ⟨e, he⟩ := parseStringInterface_raw hraw hne b rest (o + 1) m
    rw [he] at h
    cases h
  rw [nil_append, parseStringInterface] at h
  rcases hp : parseStringLength ⟨rest, o + 1, [b], m⟩ with e | ⟨e | n, d₁⟩
  · rw [hp] at h
    cases h
  · rw [hp] at h
    cases h
  · obtain ⟨u, r, rfl, hfmt, hlim, rfl⟩ := parseStringLength_sound hp
    rw [hp] at h
    change readBytes n _ = _ at h
    rw [readBytes] at h
    split at h
    · next hr =>
      obtain ⟨rfl, rfl⟩ := Prod.mk.inj (ok.inj h)
      dsimp only at hr ⊢
      refine ⟨?_, consumed_reflectString hfmt hr.1 (by omega) o m⟩
      rw [length_take]
      omega
    · cases h

end Decoder

end ReliableBT.Bencode
