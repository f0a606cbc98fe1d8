import ReliableBT.Bencode.Typed

/-!
# Several values on one `Decoder`

A stream of values, decoded one after the other by one `Decoder`, each into a variable of its own
type: an `interface{}`, an integer, a string, a map of these, or an `Unmarshaler`, directly or
through a pointer. The buffer is kept between the calls, and an `Unmarshaler` leaves the text of its
value there (`parseUnmarshaler`).

* `needs` says whether a call takes what is in the buffer for the beginning of its own text: an
  integer does, an `interface{}` does if there is a number or a string in the value, and a list that
  stands for its only item does what this item does.
* `leaves` is what is in the buffer after a call.
* `composes_iff`: the calls have the results they have alone **iff** the buffer is empty before
  every call that needs it to be.
-/

namespace ReliableBT.Bencode

open Decimal Decoder List Option Prod

variable {τ : Type}

/-- The kinds of targets of a stream. -/
def GoType.Streamed (g : GoType τ) : Prop :=
  g.unmarshaler ≠ none ∨
    match g.kind with
    | .iface => True
    | .int _ => True
    | .uint _ => True
    | .string => True
    | .map _ => True
    | .ptr _ => True
    | _ => False

/-- The cases that do not depend on the kind of value: an `Unmarshaler` clears the buffer first, an
`interface{}` needs it at the first number or string. -/
def needsAt (T : τ → GoType τ) (g : GoType τ) (v : Value) (other : GoType τ → Bool) : Bool :=
  match (g.indirect T).1.unmarshaler, (g.indirect T).1.kind with
  | some _, _ => false
  | none, .iface => !hollow v
  | none, _ => other (g.indirect T).1

/-- Does the call need the buffer to be empty? -/
def needs (T : τ → GoType τ) : GoType τ → Value → Bool
  | g, .int n => needsAt T g (.int n) fun _ => true
  | g, .str s => needsAt T g (.str s) fun _ => false
  | g, .list xs =>
    needsAt T g (.list xs) fun t =>
      match xs with
      | [x] => needs T t x
      | _ => false
  | g, .dict es => needsAt T g (.dict es) fun _ => false

/-- What is in the buffer after a call. -/
def leaves (T : τ → GoType τ) (g : GoType τ) (v : Value) (buf : Str) : Str :=
  ((outcome T g v buf).map snd).getD buf

/-- The buffer is empty before every call that needs it to be. -/
def Undisturbed (T : τ → GoType τ) : Str → List (GoType τ × Value) → Prop
  | _, [] => True
  | buf, (g, v) :: calls =>
    (needs T g v → buf = []) ∧ Undisturbed T (leaves T g v buf) calls

/-- Every call succeeds, stores what it stores with a fresh `Decoder`, and adds the length of its
value to the offset. -/
def Composes (T : τ → GoType τ) (m : Int64) : List (GoType τ × Value) → Decoder → Prop
  | [], _ => True
  | (g, v) :: calls, d =>
    ∃ w d', decode T g d = .ok (w, d') ∧
      (∃ d₀, decode T g ⟨marshal v, 0, [], m⟩ = .ok (w, d₀)) ∧
      d'.offset = d.offset + (marshal v).length ∧ Composes T m calls d'

/-- The target is suitable for the value: alone, it is decoded. -/
def Suitable (T : τ → GoType τ) (m : Int64) (g : GoType τ) (v : Value) : Prop :=
  ∃ w d₀, decode T g ⟨marshal v, 0, [], m⟩ = .ok (w, d₀)

/-! ## One call -/

variable {T : τ → GoType τ} {g : GoType τ} {buf b : Str} {w : Val} {item : GoType τ × Option ℕ}
  {ys zs : List Val} {t : GoType τ} {xs : List Value} {y : Val}

theorem GoType.Streamed.indirect (hT : ∀ e, (T e).Streamed) (hg : g.Streamed) :
    (g.indirect T).1.Streamed := by
  rw [GoType.indirect]
  split
  · exact hT _
  · exact hg

theorem GoType.Streamed.tagFree (hT : ∀ e, (T e).Streamed) (hg : g.Streamed) : TagFree T g := by
  intro g' h hu fields hk
  have hg' : g'.Streamed := by
    rcases Relation.ReflTransGen.cases_tail h with rfl | ⟨_, -, e, -, rfl⟩
    · exact hg
    · exact hT e
  rcases hg' with hu' | hk'
  · exact absurd hu hu'
  · simp [hk] at hk'

theorem outcomeInt_raw {s : Str} (hg : g.Streamed) (hu : g.unmarshaler = none)
    (halone : outcomeInt g s = some ((none, w), b)) (hraw : Raw buf) (hne : buf ≠ []) :
    outcomeInt g (buf ++ s) = none := by
  obtain ⟨⟨e, he⟩, ⟨e', he'⟩, -⟩ := not_numeral hraw hne s
  have hg := hg.resolve_left (not_not.mpr hu)
  rw [outcomeInt] at halone ⊢
  by_cases hc : checkBufferedInt (buf ++ s)
  · rw [if_pos hc]
    cases hk : g.kind with
    | int bits => simp [he]
    | uint bits => simp [he']
    | bool => simp [hk] at hg
    | _ =>
      simp only [hk] at halone
      split at halone <;> simp at halone
  · rw [if_neg hc]

theorem outcomeItems_nil (h : outcomeItems T item [] ys buf = some (zs, b)) : zs = ys := by
  rw [outcomeItems] at h
  repeat' split at h
  all_goals simp_all

theorem outcomeItems_nil_congr (h : outcomeItems T item [] ys buf = some (zs, b)) (buf' : Str) :
    ∃ b', outcomeItems T item [] ys buf' = some (ys, b') := by
  rw [outcomeItems] at h ⊢
  repeat' split at h
  all_goals simp_all

theorem outcomeItems_length (h : outcomeItems T (t, none) xs ys buf = some (zs, b)) :
    zs.length = ys.length + xs.length := by
  induction xs generalizing ys buf with
  | nil =>
    rw [outcomeItems_nil h]
    rfl
  | cons x xs ih =>
    rw [outcomeItems, if_pos (room_none ys)] at h
    split at h
    · rw [ih h, length_append, length_singleton, length_cons]
      omega
    · cases h

theorem outcomeItems_singleton (h : outcomeItems T (t, none) xs [] buf = some ([y], b)) :
    ∃ x b₁, xs = [x] ∧ outcome T t x buf = some ((none, y), b₁) := by
  have hlen := outcomeItems_length h
  obtain ⟨x, rfl⟩ : ∃ x, xs = [x] := length_eq_one_iff.mp (by simpa using hlen.symm)
  rw [outcomeItems, if_pos (room_none [])] at h
  split at h
  · next y' b₁ hx =>
    have hy := outcomeItems_nil h
    obtain rfl : y = y' := by simpa using hy
    exact ⟨x, b₁, rfl, hx⟩
  · cases h

theorem storeList_stored (hs : t.Streamed) (hu : t.unmarshaler = none)
    (h : storeList t none ys = (none, w)) : ys = [w] := by
  have hs := hs.resolve_left (not_not.mpr hu)
  rcases ys with _ | ⟨y, _ | ⟨z, ys⟩⟩
  all_goals cases hk : t.kind <;> simp_all [storeList]

/-- A call that needs the buffer to be empty comes to nothing, any other stores `w`. -/
structure Kept (needs : Bool) (w : Val) (out : Option ((Option Err × Val) × Str)) : Prop where
  refused : needs = true → out = none
  stored : needs = false → ∃ b, out = some ((none, w), b)

theorem outcomeAt_kept {v : Value} {other other' : GoType τ → Option ((Option Err × Val) × Str)}
    {nd : GoType τ → Bool} (halone : outcomeAt T g v [] other = some ((none, w), b))
    (hne : buf ≠ []) (hother : (g.indirect T).1.unmarshaler = none → ∀ {w b},
      other (g.indirect T).1 = some ((none, w), b) →
      Kept (nd (g.indirect T).1) w (other' (g.indirect T).1)) :
    Kept (needsAt T g v nd) w (outcomeAt T g v buf other') := by
  cases hu : (g.indirect T).1.unmarshaler with
  | some f =>
    rw [outcomeAt_unmarshaler hu] at halone ⊢
    simp only [needsAt, hu]
    exact ⟨by simp, fun _ => ⟨b, halone⟩⟩
  | none =>
    by_cases hk : (g.indirect T).1.kind = .iface
    · rw [outcomeAt_iface hu hk] at halone ⊢
      simp only [needsAt, hu, hk]
      obtain ⟨rfl, -⟩ : (g.indirect T).2 (.iface v) = w ∧ [] = b := by simpa using halone
      cases hh : hollow v
      · exact ⟨by simp [hne], by simp⟩
      · exact ⟨by simp, by simp⟩
    · rw [outcomeAt_other hu hk] at halone ⊢
      have hnd : needsAt T g v nd = nd (g.indirect T).1 := by simp only [needsAt, hu]
      obtain ⟨⟨⟨err, w'⟩, b'⟩, hw', h⟩ := map_eq_some_iff.mp halone
      simp only [Prod.mk.injEq] at h
      obtain ⟨⟨rfl, rfl⟩, rfl⟩ := h
      have hkept := hother hu hw'
      rw [hnd]
      refine ⟨fun hn => ?_, fun hn => ?_⟩
      · rw [hkept.refused hn]
        rfl
      · obtain ⟨b₁, hb₁⟩ := hkept.stored hn
        exact ⟨b₁, by rw [hb₁]; rfl⟩

theorem outcomeItems_kept {x : Value} {nd : Bool}
    (halone : outcomeItems T (t, none) [x] [] [] = some ([y], b))
    (hx : Kept nd y (outcome T t x buf)) :
    (nd = true → outcomeItems T (t, none) [x] [] buf = none) ∧
      (nd = false → ∃ b', outcomeItems T (t, none) [x] [] buf = some ([y], b')) := by
  rw [outcomeItems, if_pos (room_none [])] at halone ⊢
  constructor
  · intro hn
    rw [hx.refused hn]
  · intro hn
    obtain ⟨b₁, hb₁⟩ := hx.stored hn
    rw [hb₁]
    split at halone
    · next y' b₂ _ =>
      have hy := outcomeItems_nil halone
      obtain rfl : y = y' := by simpa using hy
      exact outcomeItems_nil_congr halone b₁
    · cases halone

/-- **One call.** With the text of another value in the buffer, a call that needs the buffer to be
empty does not store its value, and any other call stores what it stores alone. -/
theorem outcome_kept (hT : ∀ e, (T e).Streamed) (v : Value) (hg : g.Streamed)
    (halone : outcome T g v [] = some ((none, w), b)) (hraw : Raw buf) (hne : buf ≠ []) :
    Kept (needs T g v) w (outcome T g v buf) := by
  induction v generalizing g w b
  all_goals
    rw [outcome] at halone ⊢
    rw [needs]
  case int n =>
    refine outcomeAt_kept halone hne fun hu w b h => ⟨fun _ => ?_, by simp⟩
    exact outcomeInt_raw (hg.indirect hT) hu h hraw hne
  case str s =>
    exact outcomeAt_kept halone hne fun hu w b h => ⟨by simp, fun _ => ⟨b, h⟩⟩
  case list xs ih =>
    refine outcomeAt_kept halone hne fun hu w b h => ?_
    have ht := hg.indirect hT
    obtain ⟨⟨ys, b₁⟩, hys, hst⟩ := map_eq_some_iff.mp h
    obtain rfl : ys = [w] := storeList_stored ht hu (mk.inj hst).1
    have hst : storeList (g.indirect T).1 none [w] = (none, w) := (mk.inj hst).1
    have hitem : itemType T (g.indirect T).1 = ((g.indirect T).1, none) := by
      have hs := ht.resolve_left (not_not.mpr hu)
      rw [itemType]
      split <;> simp_all
    rw [hitem] at hys ⊢
    obtain ⟨x, b₂, rfl, hx⟩ := outcomeItems_singleton hys
    obtain ⟨hrefused, hstored⟩ :=
      outcomeItems_kept hys (ih x (mem_singleton_self x) ht hx)
    refine ⟨fun hn => ?_, fun hn => ?_⟩
    · rw [hrefused hn]
      rfl
    · obtain ⟨b', hb'⟩ := hstored hn
      exact ⟨b', by rw [hb', map_some, hst]⟩
  case dict es ih =>
    refine outcomeAt_kept halone hne fun hu w b h => ⟨by simp, fun _ => ?_⟩
    -- a key clears the buffer, so it matters only if there is none
    cases es with
    | nil =>
      simp only [outcomeEntries, map_some, some.injEq, Prod.mk.injEq] at h ⊢
      exact ⟨buf, h.1, rfl⟩
    | cons e es =>
      obtain ⟨k, x⟩ := e
      rw [outcomeEntries] at h ⊢
      exact ⟨b, h⟩

/-! ## A stream of calls -/

/-- **Streams, from any point.** -/
theorem composes_from {T : τ → GoType τ} (hT : ∀ e, (T e).Streamed) {m : Int64}
    {calls : List (GoType τ × Value)}
    (h : ∀ c ∈ calls, c.1.Streamed ∧ WellFormed (strLimit m) c.2 ∧ Suitable T m c.1 c.2) (o : ℕ)
    {buf : Str} (hraw : Raw buf) :
    Composes T m calls ⟨marshalItems (calls.map snd), o, buf, m⟩ ↔ Undisturbed T buf calls := by
  induction calls generalizing o buf with
  | nil => exact Iff.rfl
  | cons c calls ih =>
    obtain ⟨g, v⟩ := c
    obtain ⟨hg, hv, w, d₀, halone⟩ := h (g, v) (mem_cons_self ..)
    replace ih := fun o => @ih (fun c hc => h c (mem_cons_of_mem _ hc)) o
    have htag := hg.tagFree hT
    have halone' := halone
    rw [← append_nil (marshal v), decode_iff htag hv .nil] at halone'
    obtain ⟨b₀, hout₀, -⟩ := halone'
    simp only [Composes, Undisturbed, map_cons, marshalItems]
    constructor
    · rintro ⟨w', d', hd, -, -, hrest⟩
      obtain ⟨b', hout, rfl⟩ := (decode_iff htag hv hraw).mp hd
      have hleaves : leaves T g v buf = b' := by simp [leaves, hout]
      refine ⟨fun hn => ?_, ?_⟩
      · by_contra hne
        have hnone := (outcome_kept hT v hg hout₀ hraw hne).refused hn
        rw [hnone] at hout
        cases hout
      · rw [hleaves]
        exact (ih _ (outcome_raw v htag hraw hout)).mp hrest
    · rintro ⟨hn, hrest⟩
      obtain ⟨b', hout⟩ : ∃ b', outcome T g v buf = some ((none, w), b') := by
        by_cases hne : buf = []
        · exact ⟨b₀, by rw [hne]; exact hout₀⟩
        · refine (outcome_kept hT v hg hout₀ hraw hne).stored ?_
          simpa using fun h => hne (hn h)
      have hleaves : leaves T g v buf = b' := by simp [leaves, hout]
      rw [hleaves] at hrest
      exact ⟨w, _, (decode_iff htag hv hraw).mpr ⟨b', hout, rfl⟩, ⟨d₀, halone⟩, rfl,
        (ih _ (outcome_raw v htag hraw hout)).mpr hrest⟩

/-- **Streaming.** Successive calls on one `Decoder`, each with a target that suits its value, have
the results and offsets of the values alone **iff** the buffer is empty before each call that needs
it to be. -/
theorem composes_iff {T : τ → GoType τ} (hT : ∀ e, (T e).Streamed) (m : Int64)
    (calls : List (GoType τ × Value))
    (h : ∀ c ∈ calls, c.1.Streamed ∧ WellFormed (strLimit m) c.2 ∧ Suitable T m c.1 c.2) :
    Composes T m calls ⟨marshalItems (calls.map snd), 0, [], m⟩ ↔ Undisturbed T [] calls :=
  composes_from hT h 0 .nil

/-- The type of the elements of a `bencode.Bytes`. -/
def byteTypes : Unit → GoType Unit := fun _ => ⟨.uint 8, none⟩

/-- `i1e` as an `int64`, `i2e` as `bencode.Bytes`, then `1:a` as a `string`. -/
theorem composes_string_last :
    Composes byteTypes 0
      [(⟨.int 64, none⟩, .int (.int64 1)), (.bytes (), .int (.int64 2)), (.string, .str [97])]
      ⟨[105, 49, 101, 105, 50, 101, 49, 58, 97], 0, [], 0⟩ := by
  refine (composes_iff (fun _ => .inr trivial) 0 _ ?_).mpr
    ⟨fun _ => rfl, fun h => absurd h (by decide), fun h => absurd h (by decide), trivial⟩
  intro c hc
  simp only [mem_cons, not_mem_nil, or_false] at hc
  rcases hc with rfl | rfl | rfl
  · exact ⟨.inr trivial, by decide, _, _, rfl⟩
  · exact ⟨.inl (by simp [GoType.bytes]), by decide, _, _, rfl⟩
  · exact ⟨.inr trivial, by decide, _, _, rfl⟩

/-- `i1e` as `bencode.Bytes`, then `i2e` as an `int64`: the second call takes `i1e2` for the
integer. -/
theorem bytes_then_int :
    ∃ d, decode byteTypes (.bytes ()) ⟨[105, 49, 101, 105, 50, 101], 0, [], 0⟩ =
        .ok (.custom [105, 49, 101], d) ∧
      decode byteTypes ⟨.int 64, none⟩ d = .error .invalidLeadingDigit ∧
      ∃ d₀, decode byteTypes ⟨.int 64, none⟩ ⟨[105, 50, 101], 0, [], 0⟩ = .ok (.int 2, d₀) :=
  ⟨_, rfl, rfl, _, rfl⟩

end ReliableBT.Bencode
