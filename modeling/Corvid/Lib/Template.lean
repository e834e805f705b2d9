import Mathlib.Data.List.Infix
import Mathlib.Data.List.Lex
import Mathlib.Order.Basic
import Mathlib.Tactic.Common

/-!
# Templates

A template is a text with placeholders: names between an opening and a closing delimiter. It can be
read once, into literal letters and placeholders, and then filled; or the placeholders can be
replaced one name after another, each time in the whole of the text. The second is the first as
long as the values that are put in make no placeholders of the names that are still to come. Where
the first letters of a value tell it from every placeholder, it is the first only then.

## Main definitions

* `split`: a text as letters and placeholders
* `replaceAll`: every occurrence of a pattern is replaced, from left to right
* `Undisturbed`: the values make no placeholders

## Main results

* `render_eq_fill_iff`: replacing one name after another fills the template once just where the
  values make no placeholders
-/

namespace Template

variable {α : Type*}

/-- The parts of a text that is read once. -/
inductive Piece (α : Type*) where
  | letter (a : α)
  | hole (name : List α)
deriving DecidableEq

/-- The placeholder of a name. -/
def needle (o c : α) (name : List α) : List α := o :: (name ++ [c])

/-- The text that is read as the piece. -/
def Piece.spell (o c : α) : Piece α → List α
  | letter a => [a]
  | hole name => needle o c name

def spell (o c : α) (pieces : List (Piece α)) : List α := pieces.flatMap (Piece.spell o c)

/-- The letters as they are, and a value for every placeholder. -/
def fill (value : List α → List α) (pieces : List (Piece α)) : List α :=
  pieces.flatMap fun
    | .letter a => [a]
    | .hole name => value name

section Pieces

variable {o c a : α} {name other s u : List α} {pieces : List (Piece α)} {v : List α → List α}

@[simp] theorem spell_nil : spell o c ([] : List (Piece α)) = [] := rfl

@[simp] theorem spell_letter : spell o c (.letter a :: pieces) = a :: spell o c pieces := rfl

@[simp] theorem spell_hole :
    spell o c (.hole name :: pieces) = needle o c name ++ spell o c pieces := rfl

@[simp] theorem fill_nil : fill v [] = [] := rfl

@[simp] theorem fill_letter :
    fill v (.letter a :: pieces) = a :: fill v pieces := rfl

@[simp] theorem fill_hole :
    fill v (.hole name :: pieces) = v name ++ fill v pieces := rfl

theorem fill_letters_append :
    fill v (u.map .letter ++ pieces) = u ++ fill v pieces := by
  induction u with
  | nil => rfl
  | cons a u ih => simpa using ih

theorem spell_letters_append : spell o c (u.map .letter ++ pieces) = u ++ spell o c pieces := by
  induction u with
  | nil => rfl
  | cons a u ih => simpa using ih

theorem needle_ne_nil : needle o c name ≠ [] := List.cons_ne_nil _ _

/-- Two placeholders at one place are the same. -/
theorem eq_of_needle_isPrefix (hname : c ∉ name) (hother : c ∉ other)
    (h : needle o c name <+: s) (h' : needle o c other <+: s) : name = other := by
  -- the closing delimiter ends the shorter one, and the longer one has it at its end only
  have hmem : ∀ {u v : List α}, c ∉ v → u ++ [c] <+: v ++ [c] → u = v := by
    intro u v hv huv
    rcases List.prefix_concat_iff.mp huv with heq | hlt
    · exact List.append_cancel_right heq
    · exact absurd (hlt.subset (by simp)) hv
  rcases List.prefix_or_prefix_of_prefix h h' with hle | hle
  · exact hmem hother (List.cons_prefix_cons.mp hle).2
  · exact (hmem hname (List.cons_prefix_cons.mp hle).2).symm

end Pieces

variable [DecidableEq α]

/-- Every occurrence of the pattern is replaced, from left to right. The first argument counts the
letters of an occurrence that are still to be passed. -/
def replaceFrom (pattern value : List α) : ℕ → List α → List α
  | _, [] => []
  | k + 1, _ :: s => replaceFrom pattern value k s
  | 0, a :: s =>
    if pattern <+: a :: s then value ++ replaceFrom pattern value (pattern.length - 1) s
    else a :: replaceFrom pattern value 0 s

def replaceAll (pattern value s : List α) : List α := replaceFrom pattern value 0 s

/-- The name whose placeholder the text begins with. -/
def named (o c : α) (names : List (List α)) (s : List α) : Option (List α) :=
  names.find? fun name => needle o c name <+: s

def splitFrom (o c : α) (names : List (List α)) : ℕ → List α → List (Piece α)
  | _, [] => []
  | k + 1, _ :: s => splitFrom o c names k s
  | 0, a :: s =>
    match named o c names (a :: s) with
    | some name => .hole name :: splitFrom o c names ((needle o c name).length - 1) s
    | none => .letter a :: splitFrom o c names 0 s

/-- The text read once. -/
def split (o c : α) (names : List (List α)) (s : List α) : List (Piece α) := splitFrom o c names 0 s

/-- The placeholders of one name become letters of its value. -/
def expand (name value : List α) (pieces : List (Piece α)) : List (Piece α) :=
  pieces.flatMap fun
    | .letter a => [.letter a]
    | .hole other => if other = name then value.map .letter else [.hole other]

/-- The names are replaced one after another. -/
def render (o c : α) (values : List (List α × List α)) (s : List α) : List α :=
  values.foldl (fun s v => replaceAll (needle o c v.1) v.2 s) s

/-- Once the placeholders of a name are filled, the text has those placeholders of the names to come
that it has had before. -/
def Undisturbed (o c : α) : List (List α × List α) → List (Piece α) → Prop
  | [], _ => True
  | (name, value) :: values, pieces =>
    split o c (values.map Prod.fst) (spell o c (expand name value pieces)) =
      expand name value pieces ∧
    Undisturbed o c values (expand name value pieces)

/-- The value of a name. -/
def valueOf (values : List (List α × List α)) (name : List α) : List α :=
  ((values.find? fun v => v.1 = name).map Prod.snd).getD []

/-- A name has a letter, and no delimiter. -/
structure IsName (o c : α) (name : List α) : Prop where
  ne_nil : name ≠ []
  opening : o ∉ name
  closing : c ∉ name

variable {o c a : α} {name other pattern value s t u : List α} {names : List (List α)}
  {pieces : List (Piece α)} {values : List (List α × List α)}

/-! ### Reading -/

@[simp] theorem replaceAll_nil : replaceAll pattern value [] = [] := rfl

@[simp] theorem split_nil : split o c names [] = [] := rfl

theorem replaceFrom_append (h : u.length = k) :
    replaceFrom pattern value k (u ++ s) = replaceAll pattern value s := by
  induction u generalizing k with
  | nil =>
    subst h
    rfl
  | cons a u ih =>
    subst h
    exact ih rfl

theorem splitFrom_append (h : u.length = k) :
    splitFrom o c names k (u ++ s) = split o c names s := by
  induction u generalizing k with
  | nil =>
    subst h
    rfl
  | cons a u ih =>
    subst h
    exact ih rfl

theorem replaceAll_append_pattern (h : pattern ≠ []) :
    replaceAll pattern value (pattern ++ s) = value ++ replaceAll pattern value s := by
  obtain ⟨a, rest, rfl⟩ := List.exists_cons_of_ne_nil h
  have hprefix : a :: rest <+: a :: (rest ++ s) := List.prefix_append (a :: rest) s
  rw [replaceAll, List.cons_append, replaceFrom, if_pos hprefix]
  exact congrArg (value ++ ·) (replaceFrom_append rfl)

theorem replaceAll_cons (h : ¬ pattern <+: a :: s) :
    replaceAll pattern value (a :: s) = a :: replaceAll pattern value s := by
  rw [replaceAll, replaceFrom, if_neg h, replaceAll]

theorem split_cons (h : named o c names (a :: s) = none) :
    split o c names (a :: s) = .letter a :: split o c names s := by
  rw [split, splitFrom, h, split]

theorem split_needle (h : named o c names (needle o c name ++ s) = some name) :
    split o c names (needle o c name ++ s) = .hole name :: split o c names s := by
  rw [needle, List.cons_append] at h ⊢
  rw [split, splitFrom, h]
  exact congrArg (Piece.hole name :: ·) (splitFrom_append rfl)

theorem named_needle (hnames : ∀ name ∈ names, IsName o c name) (hname : name ∈ names) :
    named o c names (needle o c name ++ s) = some name := by
  have hprefix : needle o c name <+: needle o c name ++ s := List.prefix_append _ _
  cases h : named o c names (needle o c name ++ s) with
  | none =>
    have hnone := List.find?_eq_none.mp h name hname
    exact absurd (decide_eq_true hprefix) hnone
  | some other =>
    have hother : needle o c other <+: needle o c name ++ s := by simpa using List.find?_some h
    rw [eq_of_needle_isPrefix (hnames _ (List.mem_of_find?_eq_some h)).closing
      (hnames _ hname).closing hother hprefix]

theorem named_eq_some (h : named o c names s = some name) :
    name ∈ names ∧ ∃ t, s = needle o c name ++ t := by
  refine ⟨List.mem_of_find?_eq_some h, ?_⟩
  have hprefix : needle o c name <+: s := by simpa using List.find?_some h
  obtain ⟨t, ht⟩ := hprefix
  exact ⟨t, ht.symm⟩

theorem not_prefix_of_named (h : named o c names s = none) (hname : name ∈ names) :
    ¬ needle o c name <+: s := by
  simpa using List.find?_eq_none.mp h name hname

/-- A text is read placeholder by placeholder, and letter by letter. -/
theorem split_induction {motive : List α → Prop} (names : List (List α)) (nil : motive [])
    (hole : ∀ name ∈ names, ∀ s, motive s → motive (needle o c name ++ s))
    (letter : ∀ a s, named o c names (a :: s) = none → motive s → motive (a :: s))
    (s : List α) : motive s := by
  induction hlen : s.length using Nat.strong_induction_on generalizing s with
  | _ n ih =>
    subst hlen
    cases s with
    | nil => exact nil
    | cons a s =>
      cases h : named o c names (a :: s) with
      | none => exact letter a s h (ih _ (by simp) s rfl)
      | some name =>
        obtain ⟨hname, t, ht⟩ := named_eq_some h
        rw [ht]
        refine hole name hname t (ih _ ?_ t rfl)
        rw [ht, needle, List.length_append, List.length_cons]
        omega

/-! ### One replacement -/

theorem replaceAll_append_of_not_mem (h : o ∉ u) :
    replaceAll (needle o c name) value (u ++ s) = u ++ replaceAll (needle o c name) value s := by
  induction u with
  | nil => rfl
  | cons a u ih =>
    rw [List.mem_cons, not_or] at h
    have hnot : ¬ needle o c name <+: a :: (u ++ s) := fun hprefix =>
      h.1 (List.cons_prefix_cons.mp hprefix).1
    rw [List.cons_append, replaceAll_cons hnot, ih h.2, List.cons_append]

/-- The placeholder of another name is passed. -/
theorem replaceAll_needle_append (hoc : o ≠ c) (hname : IsName o c name) (hother : IsName o c other)
    (hne : other ≠ name) : replaceAll (needle o c name) value (needle o c other ++ s) =
      needle o c other ++ replaceAll (needle o c name) value s := by
  have hnot : ¬ needle o c name <+: o :: ((other ++ [c]) ++ s) := fun hprefix =>
    hne (eq_of_needle_isPrefix hother.closing hname.closing (List.prefix_append _ s) hprefix)
  have hcons : needle o c other ++ s = o :: ((other ++ [c]) ++ s) := rfl
  rw [hcons, replaceAll_cons hnot, replaceAll_append_of_not_mem (by simp [hother.opening, hoc])]
  rfl

@[simp] theorem expand_nil : expand name value [] = [] := rfl

@[simp] theorem expand_letter :
    expand name value (.letter a :: pieces) = .letter a :: expand name value pieces := rfl

@[simp] theorem expand_hole_self :
    expand name value (.hole name :: pieces) = value.map .letter ++ expand name value pieces := by
  simp [expand]

theorem expand_hole_of_ne (h : other ≠ name) :
    expand name value (.hole other :: pieces) = .hole other :: expand name value pieces := by
  simp [expand, h]

/-- Replacing a name fills those of its placeholders that are read, and no others. -/
theorem replaceAll_eq_spell (hoc : o ≠ c) (hnames : ∀ name ∈ names, IsName o c name)
    (hname : name ∈ names) : replaceAll (needle o c name) value s =
      spell o c (expand name value (split o c names s)) := by
  induction s using split_induction (o := o) (c := c) names with
  | nil => rfl
  | hole other hother s ih =>
    rw [split_needle (named_needle hnames hother)]
    by_cases h : other = name
    · subst h
      rw [replaceAll_append_pattern needle_ne_nil, expand_hole_self, spell_letters_append, ih]
    · rw [replaceAll_needle_append hoc (hnames _ hname) (hnames _ hother) h, expand_hole_of_ne h,
        spell_hole, ih]
  | letter a s h ih =>
    rw [split_cons h, replaceAll_cons (not_prefix_of_named h hname), expand_letter, spell_letter, ih]

/-! ### Placeholders and values -/

/-- The placeholders are those of the names. -/
def HolesIn (names : List (List α)) (pieces : List (Piece α)) : Prop :=
  ∀ name, .hole name ∈ pieces → name ∈ names

theorem holesIn_split (hnames : ∀ name ∈ names, IsName o c name) :
    HolesIn names (split o c names s) := by
  induction s using split_induction (o := o) (c := c) names with
  | nil => simp [HolesIn]
  | hole other hother s ih =>
    rw [split_needle (named_needle hnames hother)]
    intro name hmem
    rcases List.mem_cons.mp hmem with heq | hmem
    · rwa [Piece.hole.inj heq]
    · exact ih name hmem
  | letter a s h ih =>
    rw [split_cons h]
    intro name hmem
    rcases List.mem_cons.mp hmem with heq | hmem
    · cases heq
    · exact ih name hmem

theorem HolesIn.expand (value : List α) (h : HolesIn (name :: names) pieces) :
    HolesIn names (expand name value pieces) := by
  intro other hmem
  obtain ⟨piece, hpiece, hother⟩ := List.mem_flatMap.mp hmem
  cases piece with
  | letter a => simp at hother
  | hole third =>
    by_cases heq : third = name
    · simp [heq] at hother
    · simp only [if_neg heq, List.mem_singleton, Piece.hole.injEq] at hother
      subst hother
      exact (List.mem_cons.mp (h _ hpiece)).resolve_left heq

theorem fill_expand : fill (valueOf values) (expand name value pieces) =
    fill (valueOf ((name, value) :: values)) pieces := by
  induction pieces with
  | nil => rfl
  | cons piece pieces ih =>
    cases piece with
    | letter a => simp [ih]
    | hole other =>
      by_cases h : other = name
      · subst h
        rw [expand_hole_self, fill_letters_append, fill_hole, ih]
        simp [valueOf]
      · rw [expand_hole_of_ne h, fill_hole, fill_hole, ih]
        simp [valueOf, Ne.symm h]

/-! ### What a value does -/

variable {rank : α → ℕ}

/-- The first letters of the value tell it from a placeholder of the name: where the two differ
first, the value ranks below the placeholder. -/
inductive Opens (rank : α → ℕ) (o : α) (name : List α) : List α → Prop
  | first {a : α} {rest : List α} (h : rank a < rank o) : Opens rank o name (a :: rest)
  | second {a : α} {rest : List α} (h : ∀ x ∈ name.head?, rank a < rank x) :
      Opens rank o name (o :: a :: rest)

/-- A text with a new placeholder, once that is filled, ranks below the text it should be. -/
theorem fill_split_spell {v : List α → List α} (hoc : o ≠ c)
    (hnames : ∀ name ∈ names, IsName o c name) (hv : ∀ name ∈ names, Opens rank o name (v name))
    (hholes : HolesIn names pieces) : split o c names (spell o c pieces) = pieces ∨
      (fill v (split o c names (spell o c pieces))).map rank < (fill v pieces).map rank := by
  induction pieces with
  | nil => exact .inl rfl
  | cons piece pieces ih =>
    have ih := ih fun name hmem => hholes name (List.mem_cons_of_mem _ hmem)
    cases piece with
    | hole name =>
      rw [spell_hole, split_needle (named_needle hnames (hholes name List.mem_cons_self))]
      refine ih.imp (congrArg _) fun hlt => ?_
      rw [fill_hole, fill_hole, List.map_append, List.map_append]
      exact List.append_left_lt hlt
    | letter a =>
      rw [spell_letter]
      cases h : named o c names (a :: spell o c pieces) with
      | none =>
        rw [split_cons h]
        refine ih.imp (congrArg _) fun hlt => ?_
        rw [fill_letter, fill_letter, List.map_cons, List.map_cons]
        exact List.cons_lt_cons_iff.mpr (.inr ⟨rfl, hlt⟩)
      | some name =>
        -- a placeholder that begins with the letter
        right
        obtain ⟨hname, t, ht⟩ := named_eq_some h
        rw [ht] at h ⊢
        rw [split_needle h, fill_hole, fill_letter]
        obtain ⟨rfl, hspell⟩ := List.cons.inj ht
        have hopening := (hnames _ hname).opening
        obtain ⟨x, rest, rfl⟩ := List.exists_cons_of_ne_nil (hnames _ hname).ne_nil
        -- the first letter of the name is a letter of the text
        obtain ⟨others, rfl⟩ : ∃ others, pieces = .letter x :: others := by
          cases pieces with
          | nil => cases hspell
          | cons piece others =>
            cases piece with
            | letter y =>
              obtain ⟨rfl, -⟩ := List.cons.inj hspell
              exact ⟨others, rfl⟩
            | hole other =>
              obtain ⟨rfl, -⟩ := List.cons.inj hspell
              exact absurd List.mem_cons_self hopening
        rw [fill_letter]
        generalize hvalue : v (x :: rest) = value
        have hopens := hv _ hname
        rw [hvalue] at hopens
        cases hopens with
        | first h => exact List.cons_lt_cons_iff.mpr (.inl h)
        | second h =>
          exact List.cons_lt_cons_iff.mpr (.inr ⟨rfl, List.cons_lt_cons_iff.mpr (.inl (h x rfl))⟩)

theorem valueOf_opens (hopens : ∀ v ∈ values, Opens rank o v.1 v.2)
    (hname : name ∈ values.map Prod.fst) : Opens rank o name (valueOf values name) := by
  obtain ⟨v, hv, rfl⟩ := List.mem_map.mp hname
  cases h : values.find? fun w => w.1 = v.1 with
  | none => exact absurd (decide_eq_true rfl) (List.find?_eq_none.mp h v hv)
  | some w =>
    have hw : w.1 = v.1 := by simpa using List.find?_some h
    rw [valueOf, h, ← hw]
    exact hopens w (List.mem_of_find?_eq_some h)

/-- The names replaced one after another give the text that is read once, or one that ranks below
it. -/
theorem render_cases (hoc : o ≠ c) (hnames : ∀ v ∈ values, IsName o c v.1)
    (hopens : ∀ v ∈ values, Opens rank o v.1 v.2) (s : List α) :
    Undisturbed o c values (split o c (values.map Prod.fst) s) ∧
        render o c values s = fill (valueOf values) (split o c (values.map Prod.fst) s) ∨
      ¬ Undisturbed o c values (split o c (values.map Prod.fst) s) ∧
        (render o c values s).map rank <
          (fill (valueOf values) (split o c (values.map Prod.fst) s)).map rank := by
  induction values generalizing s with
  | nil =>
    refine .inl ⟨trivial, ?_⟩
    induction s with
    | nil => rfl
    | cons a s ih =>
      rw [split_cons rfl, fill_letter]
      exact congrArg (a :: ·) ih
  | cons v values ih =>
    obtain ⟨name, value⟩ := v
    have hall : ∀ other ∈ name :: values.map Prod.fst, IsName o c other := by
      intro other hother
      obtain ⟨w, hw, rfl⟩ := List.mem_map.mp (show other ∈ ((name, value) :: values).map Prod.fst from hother)
      exact hnames w hw
    rw [List.forall_mem_cons] at hnames hopens
    rw [List.map_cons]
    dsimp only
    generalize hpieces : split o c (name :: values.map Prod.fst) s = pieces
    have hholes : HolesIn (name :: values.map Prod.fst) pieces := hpieces ▸ holesIn_split hall
    have hstep : render o c ((name, value) :: values) s =
        render o c values (spell o c (expand name value pieces)) := by
      rw [← hpieces, ← replaceAll_eq_spell hoc hall List.mem_cons_self]
      rfl
    rw [hstep, ← fill_expand, Undisturbed]
    have hrest : ∀ other ∈ values.map Prod.fst, IsName o c other := fun other hother =>
      hall other (List.mem_cons_of_mem _ hother)
    have hsplit := fill_split_spell hoc hrest (fun _ => valueOf_opens hopens.2)
      (hholes.expand value)
    have ih := ih hnames.2 hopens.2 (spell o c (expand name value pieces))
    rcases hsplit with heq | hlt
    · rw [heq] at ih ⊢
      simpa only [true_and] using ih
    · -- the text ranks below already, and the other names do not raise it
      refine .inr ⟨fun h => ?_, ?_⟩
      · rw [h.1] at hlt
        exact lt_irrefl _ hlt
      · rcases ih with ⟨-, hrender⟩ | ⟨-, hrender⟩
        · rw [hrender]
          exact hlt
        · exact hrender.trans hlt

/-- Replacing one name after another fills the text that is read once just where the values make no
placeholders of the names to come. -/
theorem render_eq_fill_iff (hoc : o ≠ c) (hnames : ∀ v ∈ values, IsName o c v.1)
    (hopens : ∀ v ∈ values, Opens rank o v.1 v.2) (s : List α) :
    render o c values s = fill (valueOf values) (split o c (values.map Prod.fst) s) ↔
      Undisturbed o c values (split o c (values.map Prod.fst) s) := by
  rcases render_cases hoc hnames hopens s with ⟨hundisturbed, heq⟩ | ⟨hdisturbed, hlt⟩
  · exact iff_of_true heq hundisturbed
  · refine iff_of_false (fun heq => ?_) hdisturbed
    rw [heq] at hlt
    exact lt_irrefl _ hlt

end Template
