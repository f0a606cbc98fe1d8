import Mathlib

/-!
# Unix file paths, lexically

A path is a byte string; its elements stand between the separators. What a path names, without
looking at a file system, is a `Lexical`: whether it starts from the root, how often it goes up from
where it starts, and the names it goes down by. `parse` follows the elements of a path one by one,
and `clean` writes the result down, which is the shortest path that names the same.

`clean`, `join` and `rel` are `filepath.Clean`, `filepath.Join` and `filepath.Rel`.

* `parse_clean`: a cleaned path names what the path names.
* `parse_join_pair`: joining a path to a directory goes on from what the directory names.
* `Below`: a path names a directory, or something below it.
* `rel_below_iff`: there is a relative path that does not lead up iff the target is below the base.
-/

open List Option

namespace ReliableBT.FilePath

/-- `/` -/
def sep : UInt8 := 47

/-- `.` -/
def dot : List UInt8 := [46]

/-- `..` -/
def dotdot : List UInt8 := [46, 46]

/-- The parts of a path between the separators. -/
def elements (p : List UInt8) : List (List UInt8) := p.splitOn sep

/-- The elements with separators between them. -/
def unite (es : List (List UInt8)) : List UInt8 := [sep].intercalate es

/-- An element that goes down. -/
def IsName (e : List UInt8) : Prop := e ≠ [] ∧ e ≠ dot ∧ e ≠ dotdot ∧ sep ∉ e

instance (e : List UInt8) : Decidable (IsName e) := inferInstanceAs (Decidable (_ ∧ _ ∧ _ ∧ _))

/-- What a path names. -/
structure Lexical where
  rooted : Bool
  ups : ℕ
  names : List (List UInt8)
  /-- There is nothing above the root. -/
  top : rooted = true → ups = 0
  valid : ∀ e ∈ names, IsName e

namespace Lexical

@[ext] theorem ext {d d' : Lexical} (hr : d.rooted = d'.rooted) (hu : d.ups = d'.ups)
    (hn : d.names = d'.names) : d = d' := by
  cases d
  cases d'
  obtain rfl := hr
  obtain rfl := hu
  obtain rfl := hn
  rfl

instance : DecidableEq Lexical := fun d d' =>
  decidable_of_iff (d.rooted = d'.rooted ∧ d.ups = d'.ups ∧ d.names = d'.names)
    ⟨fun ⟨hr, hu, hn⟩ => ext hr hu hn, fun h => h ▸ ⟨rfl, rfl, rfl⟩⟩

/-- Where a path starts. -/
def start (rooted : Bool) : Lexical := ⟨rooted, 0, [], fun _ => rfl, by simp⟩

/-- One directory up. -/
def up (d : Lexical) : Lexical :=
  if d.names ≠ [] then
    { d with
      names := d.names.dropLast
      valid := fun e he => d.valid e (mem_of_mem_dropLast he) }
  else if h : d.rooted = true then d
  else { d with ups := d.ups + 1, top := fun h' => absurd h' h }

/-- Down by a list of names. -/
def down (d : Lexical) (names : List (List UInt8)) (h : ∀ e ∈ names, IsName e) : Lexical :=
  { d with
    names := d.names ++ names
    valid := fun e he => (mem_append.mp he).elim (d.valid e) (h e) }

/-- One element further. -/
def go (d : Lexical) (e : List UInt8) : Lexical :=
  if h : IsName e then d.down [e] (by simpa using h)
  else if e = dotdot then d.up
  else d

/-- The elements of the shortest path. -/
def elems (d : Lexical) : List (List UInt8) := replicate d.ups dotdot ++ d.names

/-- The shortest path. -/
def render (d : Lexical) : List UInt8 :=
  if d.rooted then sep :: unite d.elems else if d.elems = [] then dot else unite d.elems

end Lexical

open Lexical

/-- What a path names. -/
def parse (p : List UInt8) : Lexical :=
  (elements p).foldl Lexical.go (start (decide (p.head? = some sep)))

/-- `filepath.Clean` -/
def clean (p : List UInt8) : List UInt8 := (parse p).render

/-- `filepath.Join` -/
def join (es : List (List UInt8)) : List UInt8 :=
  match es.dropWhile (· == []) with
  | [] => []
  | es => clean (unite es)

/-- What is left of two lists behind what they have in common. -/
def dropCommon : List (List UInt8) → List (List UInt8) →
    List (List UInt8) × List (List UInt8)
  | b :: bs, t :: ts => if b = t then dropCommon bs ts else (b :: bs, t :: ts)
  | bs, ts => (bs, ts)

/-- `filepath.Rel`, none for its error -/
def rel (basepath targpath : List UInt8) : Option (List UInt8) :=
  let base := parse basepath
  let targ := parse targpath
  if base.rooted ≠ targ.rooted then none
  else
    let (bs, ts) := dropCommon base.elems targ.elems
    if bs.head? = some dotdot then none
    else
      let es := replicate bs.length dotdot ++ ts
      some (if es = [] then dot else unite es)

/-- The path names the directory `base`, or something below it. -/
def Below (base p : List UInt8) : Prop :=
  ∃ names h, parse p = (parse base).down names h

/-! ## Elements -/

theorem elements_append (a b : List UInt8) : elements (a ++ sep :: b) = elements a ++ elements b :=
  splitOn_append_cons_self a b

variable {es : List (List UInt8)} {e : List UInt8} {d : Lexical} {a base targ : List UInt8}

theorem elements_unite (h : ∀ e ∈ es, sep ∉ e) (hne : es ≠ []) : elements (unite es) = es :=
  splitOn_intercalate sep h hne

theorem unite_cons (h : es ≠ []) : unite (e :: es) = e ++ sep :: unite es := by
  rw [unite, intercalate_cons_of_ne_nil h, append_assoc]
  rfl

theorem unite_singleton (e : List UInt8) : unite [e] = e := intercalate_singleton

theorem sep_notMem_dotdot : sep ∉ dotdot := by decide

theorem unite_dotdot (es : List (List UInt8)) :
    unite (dotdot :: es) = dotdot ∨ dotdot ++ [sep] <+: unite (dotdot :: es) := by
  cases es with
  | nil => exact .inl (unite_singleton dotdot)
  | cons e es =>
    right
    rw [unite_cons (by simp)]
    exact ⟨unite (e :: es), by simp⟩

theorem head_elements {p : List UInt8} (h : p = dotdot ∨ dotdot ++ [sep] <+: p) :
    (elements p).head? = some dotdot := by
  rcases h with rfl | ⟨q, rfl⟩
  · decide
  · rw [show dotdot ++ [sep] ++ q = dotdot ++ sep :: q by simp, elements_append]
    rfl

/-! ## Going along elements -/

namespace Lexical

variable {d d' : Lexical}

@[simp] theorem go_dotdot (d : Lexical) : d.go dotdot = d.up := rfl

theorem go_name {e : List UInt8} (h : IsName e) : d.go e = d.down [e] (by simpa using h) :=
  dif_pos h

@[simp] theorem down_nil (d : Lexical) : d.down [] (by simp) = d := by
  ext1
  · rfl
  · rfl
  · exact append_nil d.names

theorem down_down (names names' : List (List UInt8)) (h : ∀ e ∈ names, IsName e)
    (h' : ∀ e ∈ names', IsName e) :
    (d.down names h).down names' h' = d.down (names ++ names')
      fun e he => (mem_append.mp he).elim (h e) (h' e) := by
  ext1
  · rfl
  · rfl
  · exact append_assoc _ _ _

theorem foldl_go_names {names : List (List UInt8)} (h : ∀ e ∈ names, IsName e) :
    names.foldl go d = d.down names h := by
  induction names generalizing d with
  | nil => exact (down_nil d).symm
  | cons e names ih =>
    rw [foldl_cons, go_name (h e mem_cons_self),
      ih fun e' he' => h e' (mem_cons_of_mem e he'), down_down]
    rfl

theorem foldl_go_dotdot (k : ℕ) (hr : d.rooted = false) (hn : d.names = []) :
    (replicate k dotdot).foldl go d = { d with
      ups := d.ups + k, top := fun h => absurd h (by simp [hr]) } := by
  induction k generalizing d with
  | zero => rfl
  | succ k ih =>
    have hup : d.up = { d with ups := d.ups + 1, top := fun h => absurd h (by simp [hr]) } := by
      rw [up, if_neg (by simp [hn]), dif_neg (by simp [hr])]
    rw [replicate_succ, foldl_cons, go_dotdot, hup]
    refine (@ih { d with ups := d.ups + 1, top := fun h => absurd h (by simp [hr]) } hr hn).trans ?_
    ext1
    · rfl
    · exact Nat.add_right_comm d.ups 1 k
    · rfl

@[simp] theorem go_rooted (d : Lexical) (e : List UInt8) : (d.go e).rooted = d.rooted := by
  unfold go up
  split_ifs
  · rfl
  · rfl
  · rfl
  · rfl
  · rfl

theorem foldl_go_rooted (d : Lexical) (es : List (List UInt8)) :
    (es.foldl go d).rooted = d.rooted := by
  induction es generalizing d with
  | nil => rfl
  | cons e es ih => rw [foldl_cons, ih, go_rooted]

theorem sep_notMem_elems (d : Lexical) : ∀ e ∈ d.elems, sep ∉ e := by
  intro e he
  rcases mem_append.mp he with h | h
  · rw [eq_of_mem_replicate h]
    exact sep_notMem_dotdot
  · exact (d.valid e h).2.2.2

theorem ne_nil_of_mem_elems (d : Lexical) : ∀ e ∈ d.elems, e ≠ [] := by
  intro e he
  rcases mem_append.mp he with h | h
  · rw [eq_of_mem_replicate h]
    decide
  · exact (d.valid e h).1

theorem elems_of_rooted (h : d.rooted = true) : d.elems = d.names := by
  rw [elems, d.top h]
  rfl

theorem foldl_go_elems (d : Lexical) : d.elems.foldl go (start d.rooted) = d := by
  cases hr : d.rooted with
  | true =>
    rw [elems_of_rooted hr, foldl_go_names d.valid]
    ext1
    · exact hr.symm
    · exact (d.top hr).symm
    · rfl
  | false =>
    rw [elems, foldl_append, foldl_go_dotdot _ rfl rfl, foldl_go_names d.valid]
    ext1
    · exact hr.symm
    · exact Nat.zero_add d.ups
    · rfl

end Lexical

theorem parse_rooted (p : List UInt8) : (parse p).rooted = decide (p.head? = some sep) :=
  foldl_go_rooted _ _

theorem head_unite (h : e ≠ []) : (unite (e :: es)).head? = e.head? := by
  cases es with
  | nil => rw [unite_singleton]
  | cons e' es => rw [unite_cons (by simp), head?_append_of_ne_nil _ h]

theorem head_unite_elems (h : d.elems ≠ []) : (unite d.elems).head? ≠ some sep := by
  cases hes : d.elems with
  | nil => exact absurd hes h
  | cons e es =>
    have he : e ∈ d.elems := hes ▸ mem_cons_self
    rw [head_unite (d.ne_nil_of_mem_elems e he)]
    intro hhead
    exact d.sep_notMem_elems e he (mem_of_head? hhead)

theorem head_elements_render (h : d.ups ≠ 0) : (elements d.render).head? = some dotdot := by
  have hr : ¬ d.rooted = true := fun hr => h (d.top hr)
  obtain ⟨k, hk⟩ := Nat.exists_eq_succ_of_ne_zero h
  have hes : d.elems = dotdot :: (replicate k dotdot ++ d.names) := by
    rw [elems, hk, replicate_succ, cons_append]
  rw [render, if_neg hr, hes, if_neg (by simp)]
  exact head_elements (unite_dotdot _)

theorem parse_render (d : Lexical) : parse d.render = d := by
  rw [render]
  cases hr : d.rooted with
  | true =>
    rw [if_pos rfl, parse, show sep :: unite d.elems = [] ++ sep :: unite d.elems from rfl,
      elements_append, foldl_append]
    change (elements (unite d.elems)).foldl go (start true) = d
    by_cases hes : d.elems = []
    · have hd := foldl_go_elems d
      rw [hes, hr] at hd
      rw [hes]
      exact hd
    · rw [elements_unite d.sep_notMem_elems hes, ← hr]
      exact foldl_go_elems d
  | false =>
    rw [if_neg (by simp)]
    by_cases hes : d.elems = []
    · have hd := foldl_go_elems d
      rw [hes, hr] at hd
      rw [if_pos hes]
      exact hd
    · rw [if_neg hes, parse, elements_unite d.sep_notMem_elems hes,
        decide_eq_false (head_unite_elems hes), ← hr]
      exact foldl_go_elems d

/-- **A cleaned path** names what the path names. -/
theorem parse_clean (p : List UInt8) : parse (clean p) = parse p := parse_render (parse p)

theorem parse_append (ha : a ≠ []) (b : List UInt8) :
    parse (a ++ sep :: b) = (elements b).foldl go (parse a) := by
  rw [parse, elements_append, foldl_append, head?_append_of_ne_nil _ ha]
  rfl

theorem foldl_go_unite {names : List (List UInt8)} (d : Lexical) (h : ∀ e ∈ names, IsName e) :
    (elements (unite names)).foldl go d = d.down names h := by
  cases names with
  | nil => exact (down_nil d).symm
  | cons e names =>
    rw [elements_unite (fun e he => (h e he).2.2.2) (by simp), foldl_go_names h]

theorem foldl_go_render (d' : Lexical) (h : d.ups = 0) :
    (elements d.render).foldl go d' = d'.down d.names d.valid := by
  have hes : d.elems = d.names := by rw [elems, h]; rfl
  have hnames := foldl_go_unite d' d.valid
  rw [render, hes]
  split
  · rw [show sep :: unite d.names = [] ++ sep :: unite d.names from rfl, elements_append,
      foldl_append]
    exact hnames
  · split
    · next hn =>
      -- `.` leads nowhere, as the empty path does
      rw [← hnames, show unite d.names = [] by rw [hn]; rfl]
      rfl
    · exact hnames

theorem join_cons_of_ne (h : e ≠ []) (es : List (List UInt8)) :
    join (e :: es) = clean (unite (e :: es)) := by
  have hdrop : (e :: es).dropWhile (· == []) = e :: es := by
    rw [dropWhile_cons_of_neg (by simpa using h)]
  rw [join, hdrop]

/-- **Joining** a path to a directory goes on from what the directory names. -/
theorem parse_join_pair (ha : a ≠ []) (b : List UInt8) :
    parse (join [a, b]) = (elements b).foldl go (parse a) := by
  rw [join_cons_of_ne ha, parse_clean, unite_cons (by simp), unite_singleton, parse_append ha]

theorem join_nil_pair {b : List UInt8} (hb : b ≠ []) : join [[], b] = clean b := by
  have hdrop : [[], b].dropWhile (· == []) = [b] := by
    rw [dropWhile_cons_of_pos (by decide), dropWhile_cons_of_neg (by simpa using hb)]
  rw [join, hdrop]
  exact congrArg clean (unite_singleton b)

theorem head_clean (p : List UInt8) : (clean p).head? = some sep ↔ p.head? = some sep := by
  have h := congrArg Lexical.rooted (parse_clean p)
  rw [parse_rooted, parse_rooted] at h
  exact decide_eq_decide.mp h

theorem clean_ne_nil (p : List UInt8) : clean p ≠ [] := by
  intro h
  have hp := parse_clean p
  rw [h] at hp
  -- the empty path names what `.` names, which is not the empty path
  rw [clean, ← hp] at h
  exact absurd h (by decide)

/-! ## Relative paths -/

theorem dropCommon_spec (bs ts : List (List UInt8)) :
    ∃ common, bs = common ++ (dropCommon bs ts).1 ∧ ts = common ++ (dropCommon bs ts).2 := by
  induction bs generalizing ts with
  | nil => exact ⟨[], by simp [dropCommon]⟩
  | cons b bs ih =>
    cases ts with
    | nil => exact ⟨[], by simp [dropCommon]⟩
    | cons t ts =>
      rw [dropCommon]
      split
      · next hbt =>
        obtain ⟨common, hb, ht⟩ := ih ts
        exact ⟨b :: common, by rw [cons_append, ← hb], by rw [cons_append, ← ht, hbt]⟩
      · exact ⟨[], rfl, rfl⟩

theorem dropCommon_append (bs ts : List (List UInt8)) : dropCommon bs (bs ++ ts) = ([], ts) := by
  induction bs with
  | nil => cases ts <;> rfl
  | cons b bs ih => rw [cons_append, dropCommon, if_pos rfl, ih]

theorem replicate_append_inj {a b : ℕ} {ns ms : List (List UInt8)} (hn : dotdot ∉ ns)
    (hm : ms.head? ≠ some dotdot)
    (h : replicate a dotdot ++ ns = replicate b dotdot ++ ms) : a = b ∧ ns = ms := by
  induction a generalizing b with
  | zero =>
    cases b with
    | zero => exact ⟨rfl, h⟩
    | succ b =>
      have hns : ns = dotdot :: (replicate b dotdot ++ ms) := h
      rw [hns] at hn
      exact absurd mem_cons_self hn
  | succ a ih =>
    cases b with
    | zero =>
      have hms : dotdot :: (replicate a dotdot ++ ns) = ms := h
      rw [← hms] at hm
      exact absurd rfl hm
    | succ b =>
      obtain ⟨hab, hnm⟩ := ih (cons.inj h).2
      exact ⟨congrArg _ hab, hnm⟩

theorem dotdot_notMem_names (d : Lexical) : dotdot ∉ d.names := fun h => (d.valid _ h).2.2.1 rfl

/-- The relative path leads up, to the parent directory or to something below it. -/
def GoesUp (r : List UInt8) : Prop := r = dotdot ∨ dotdot ++ [sep] <+: r

instance (r : List UInt8) : Decidable (GoesUp r) := inferInstanceAs (Decidable (_ ∨ _))

theorem below_of_rel {r : List UInt8} (hr : rel base targ = some r) (hup : ¬ GoesUp r) :
    Below base targ := by
  rw [rel] at hr
  dsimp only at hr
  split at hr
  · cases hr
  · next hrooted =>
    split at hr
    · cases hr
    · obtain ⟨common, hb, ht⟩ := dropCommon_spec (parse base).elems (parse targ).elems
      generalize hbs : (dropCommon (parse base).elems (parse targ).elems).1 = bs at hr hb
      generalize hts : (dropCommon (parse base).elems (parse targ).elems).2 = ts at hr ht
      -- nothing is left of the base, or else the path would lead up
      cases bs with
      | cons b bs =>
        refine absurd ?_ hup
        rw [length_cons, replicate_succ, cons_append, if_neg (by simp)] at hr
        rw [← some.inj hr]
        exact unite_dotdot _
      | nil =>
        have hhead : ts.head? ≠ some dotdot := by
          intro hhead
          refine absurd ?_ hup
          obtain ⟨ts', rfl⟩ := head?_eq_some_iff.mp hhead
          rw [length_nil, replicate_zero, nil_append, if_neg (by simp)] at hr
          rw [← some.inj hr]
          exact unite_dotdot _
        rw [append_nil] at hb
        rw [← hb] at ht
        unfold elems at ht
        rw [append_assoc] at ht
        have hhead' : ((parse base).names ++ ts).head? ≠ some dotdot := by
          cases hn : (parse base).names with
          | nil => exact hhead
          | cons n names =>
            intro hc
            refine dotdot_notMem_names (parse base) ?_
            rw [hn, ← some.inj hc]
            exact mem_cons_self
        obtain ⟨hups, hnames⟩ := replicate_append_inj (dotdot_notMem_names _) hhead' ht
        refine ⟨ts, fun e he => (parse targ).valid e ?_, ?_⟩
        · rw [hnames]
          exact mem_append_right _ he
        · ext1
          · exact (not_not.mp hrooted).symm
          · exact hups
          · exact hnames

theorem Below.exists_rel (h : Below base targ) : ∃ r, rel base targ = some r ∧ ¬ GoesUp r := by
  obtain ⟨names, hvalid, hp⟩ := h
  have helems : (parse targ).elems = (parse base).elems ++ names := by
    rw [hp, elems, elems, append_assoc]
    rfl
  have hrooted : (parse base).rooted = (parse targ).rooted := by rw [hp]; rfl
  refine ⟨if names = [] then dot else unite names, ?_, ?_⟩
  · rw [rel]
    dsimp only
    rw [if_neg (not_not.mpr hrooted), helems, dropCommon_append]
    rfl
  · intro hup
    have hhead := head_elements hup
    split at hhead
    · exact absurd hhead (by decide)
    · next hne =>
      rw [elements_unite (fun e he => (hvalid e he).2.2.2) hne] at hhead
      exact (hvalid _ (mem_of_head? hhead)).2.2.1 rfl

/-- **Relative paths.** There is one that does not lead up iff the target is below the base. -/
theorem rel_below_iff (base targ : List UInt8) :
    (∃ r, rel base targ = some r ∧ ¬ GoesUp r) ↔ Below base targ :=
  ⟨fun ⟨_, hr, hup⟩ => below_of_rel hr hup, Below.exists_rel⟩

end ReliableBT.FilePath
