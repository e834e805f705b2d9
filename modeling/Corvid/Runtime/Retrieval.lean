import Corvid.Lib.Like
import Corvid.Lib.Rows
import Corvid.Runtime.Rag
import Mathlib.Data.List.Infix
import Mathlib.Data.List.Sort

/-!
# Searching for text

The text of a query is put into a pattern of `LIKE`, with an escape character before the characters
that stand for others. The escape character itself is not escaped: in a query it makes the character
behind it stand for itself and is lost.

## Main definitions

* `RagSqliteIndex`: the chunks that are stored
* `searchText`: the search with a pattern
* `hits`: the first chunks that contain the query

## Main results

* `readChunk_storedRow`: a chunk is read as it was stored
* `searchText_eq_hits_iff`: the search finds what contains the query just when there is no backslash in
  it
-/

namespace Corvid.Rag

open Like (Documented Literal same patternCompare)

/-! ## The index -/

/-- A row of `rag_chunks`. -/
structure RagRow where
  chunkId : String
  docId : String
  source : String
  text : String
  startChar : Int64
  endChar : Int64
  provenanceKey : String
deriving DecidableEq, Repr

/-- The rows of `rag_chunks`, which are numbered by 64-bit integers. -/
structure RagSqliteIndex where
  table : Relational.Rows RagRow.chunkId
  fits : table.rows.length < 2 ^ 63

/-- The row that `insert_chunks` stores for a chunk. -/
def storedRow (chunk : RagChunk) : RagRow where
  chunkId := chunk.chunkId
  docId := chunk.docId
  source := chunk.source
  text := chunk.text
  startChar := (UInt64.ofNat chunk.startChar).toInt64
  endChar := (UInt64.ofNat chunk.endChar).toInt64
  provenanceKey := chunk.provenanceKey

def readChunk (row : RagRow) : RagChunk where
  docId := row.docId
  chunkId := row.chunkId
  source := row.source
  text := row.text
  startChar := row.startChar.toUInt64.toNat
  endChar := row.endChar.toUInt64.toNat
  provenanceKey := row.provenanceKey

/-- A chunk is read as it was stored. -/
theorem readChunk_storedRow {chunk : RagChunk} (hstart : chunk.startChar < 2 ^ 64)
    (hend : chunk.endChar < 2 ^ 64) : readChunk (storedRow chunk) = chunk := by
  have hwrap : ∀ n < 2 ^ 64, (UInt64.ofNat n).toInt64.toUInt64.toNat = n := fun n hn => by
    rw [UInt64.toUInt64_toInt64, UInt64.toNat_ofNat', Nat.mod_eq_of_lt hn]
  simp only [readChunk, storedRow, hwrap _ hstart, hwrap _ hend]

/-! ## The search -/

/-- `str::replace` of one character. -/
def replaceChar (c : Char) (new s : List Char) : List Char :=
  s.flatMap fun d => if d = c then new else [d]

/-- The query, with a backslash before the characters of patterns. -/
def escapeQuery (query : List Char) : List Char :=
  replaceChar '_' ['\\', '_'] (replaceChar '%' ['\\', '%'] query)

/-- `limit`, which does not limit when it is negative. -/
def limitRows (limit : Int64) (rows : List RagRow) : List RagRow :=
  if limit < 0 then rows else rows.take limit.toInt.toNat

/-- The rows that are selected by their text, in the order of their ids. -/
def selected (text : String → Bool) (index : RagSqliteIndex) : List RagRow :=
  (index.table.rows.filter fun row => text row.text).insertionSort fun a b => a.chunkId ≤ b.chunkId

def searchText (like : List Char → List Char → Bool) (index : RagSqliteIndex) (query : String)
    (limit : UInt64) : List RagChunk :=
  let pattern := '%' :: (escapeQuery query.toList ++ ['%'])
  (limitRows limit.toInt64 (selected (fun text => like pattern text.toList) index)).map readChunk

/-- The text contains the query, up to the case of ASCII letters. -/
def ContainsQuery (query text : String) : Prop :=
  query.toList.map Char.toLower <:+: text.toList.map Char.toLower

instance (query text : String) : Decidable (ContainsQuery query text) :=
  inferInstanceAs (Decidable (_ <:+: _))

/-- The first chunks that contain the query, in the order of their ids. -/
def hits (index : RagSqliteIndex) (query : String) (limit : UInt64) : List RagChunk :=
  ((selected (fun text => ContainsQuery query text) index).take limit.toNat).map readChunk

@[simp] theorem escapeQuery_nil : escapeQuery [] = [] := rfl

theorem escapeQuery_cons (c : Char) (l : List Char) :
    escapeQuery (c :: l) =
      (if c = '%' ∨ c = '_' then ['\\', c] else [c]) ++ escapeQuery l := by
  simp only [escapeQuery, replaceChar, List.flatMap_cons, List.flatMap_append]
  congr 1
  by_cases hmany : c = '%'
  · simp [hmany]
  · by_cases hone : c = '_'
    · simp [hone]
    · simp [hmany, hone]

theorem length_selected_le (text : String → Bool) (index : RagSqliteIndex) :
    (selected text index).length ≤ index.table.rows.length := by
  rw [selected, List.length_insertionSort]
  exact List.length_filter_le _ _

theorem toInt_toInt64 (n : UInt64) :
    n.toInt64.toInt = if n.toNat < 2 ^ 63 then (n.toNat : ℤ) else n.toNat - 2 ^ 64 := by
  have hcond : n.toInt64.toInt = if 2 * n.toNat < 2 ^ 64 then (n.toNat : ℤ) else n.toNat - 2 ^ 64 :=
    BitVec.toInt_eq_toNat_cond n.toBitVec
  rw [hcond]
  split <;> split <;> omega

/-- A limit that is read as negative is more than there are rows. -/
theorem limitRows_eq {limit : UInt64} {rows : List RagRow} (hrows : rows.length < 2 ^ 63) :
    limitRows limit.toInt64 rows = rows.take limit.toNat := by
  have hlimit := limit.toNat_lt
  have hint := toInt_toInt64 limit
  simp only [limitRows, Int64.lt_iff_toInt_lt, Int64.toInt_zero]
  by_cases hsmall : limit.toNat < 2 ^ 63
  · rw [if_pos hsmall] at hint
    rw [hint, if_neg (by omega), Int.toNat_natCast]
  · rw [if_neg hsmall] at hint
    rw [hint, if_pos (by omega), List.take_of_length_le (by omega)]

/-! ## Queries without a backslash -/

variable {like : List Char → List Char → Bool}

/-- Without a backslash, the pattern of a query stands for the query. -/
theorem literal_escapeQuery (hlike : Documented '\\' like) {query : List Char}
    (h : '\\' ∉ query) : Literal like (escapeQuery query) query := by
  induction query with
  | nil => exact Like.literal_nil
  | cons c query ih =>
    obtain ⟨hc, hquery⟩ := not_or.mp (List.mem_cons.not.mp h)
    rw [escapeQuery_cons]
    refine Like.literal_cons (fun q t => ?_) (ih hquery)
    split
    next => exact hlike.escaped c q t
    next hplain =>
      obtain ⟨hmany, hone⟩ := not_or.mp hplain
      exact hlike.char c q t hmany hone (Ne.symm hc)

theorem searchText_eq_hits (hlike : Documented '\\' like) {query : String}
    (h : '\\' ∉ query.toList) (index : RagSqliteIndex) (limit : UInt64) :
    searchText like index query limit = hits index query limit := by
  have hselect : ∀ text : String, like ('%' :: (escapeQuery query.toList ++ ['%'])) text.toList =
      decide (ContainsQuery query text) := by
    intro text
    rw [Bool.eq_iff_iff, (literal_escapeQuery hlike h).between_iff hlike, decide_eq_true_iff]
    rfl
  rw [searchText, hits]
  simp only [hselect]
  rw [limitRows_eq (Nat.lt_of_le_of_lt (length_selected_le _ index) index.fits)]

/-! ## Queries with a backslash -/

/-- The shortest text that the pattern of a query is met by, behind a backslash or not. The backslash
goes with the character behind it, which may be the `%` at the end of the pattern. -/
def shadow : Bool → List Char → List Char
  | false, [] => []
  | true, [] => ['%']
  | false, c :: query => if c = '\\' then shadow true query else c :: shadow false query
  | true, c :: query =>
    if c = '%' then '\\' :: shadow false query
    else if c = '_' then '\\' :: 'a' :: shadow false query
    else c :: shadow false query

/-- The pattern of a query, behind a backslash or not. -/
def patternFrom : Bool → List Char → List Char
  | false, query => escapeQuery query ++ ['%']
  | true, query => '\\' :: (escapeQuery query ++ ['%'])

theorem like_shadow (hlike : Documented '\\' like) (escaped : Bool) (query : List Char) :
    like (patternFrom escaped query) (shadow escaped query) = true := by
  have hempty : like ['%'] [] = true := (hlike.many [] []).mpr ⟨[], [], rfl, (hlike.nil []).mpr rfl⟩
  induction query generalizing escaped with
  | nil =>
    cases escaped with
    | false => exact hempty
    | true => exact (hlike.escaped '%' [] ['%']).mpr ⟨'%', [], rfl, rfl, (hlike.nil []).mpr rfl⟩
  | cons c query ih =>
    have hplain : like (escapeQuery query ++ ['%']) (shadow false query) = true := ih false
    have hafter : like ('\\' :: (escapeQuery query ++ ['%'])) (shadow true query) = true := ih true
    cases escaped with
    | false =>
      rw [patternFrom, escapeQuery_cons, shadow]
      by_cases hesc : c = '\\'
      · subst hesc
        exact hafter
      · rw [if_neg hesc]
        by_cases hspecial : c = '%' ∨ c = '_'
        · rw [if_pos hspecial]
          exact (hlike.escaped c _ _).mpr ⟨c, _, rfl, rfl, hplain⟩
        · obtain ⟨hmany, hone⟩ := not_or.mp hspecial
          rw [if_neg hspecial]
          exact (hlike.char c _ _ hmany hone hesc).mpr ⟨c, _, rfl, rfl, hplain⟩
    | true =>
      rw [patternFrom, escapeQuery_cons, shadow]
      by_cases hmany : c = '%'
      · -- an escaped backslash, and a `%` that is met by nothing
        rw [if_pos hmany, if_pos (.inl hmany), hmany]
        exact (hlike.escaped '\\' _ _).mpr ⟨'\\', _, rfl, rfl,
          (hlike.many _ _).mpr ⟨[], _, rfl, hplain⟩⟩
      · rw [if_neg hmany]
        by_cases hone : c = '_'
        · rw [if_pos hone, if_pos (.inr hone), hone]
          exact (hlike.escaped '\\' _ _).mpr ⟨'\\', _, rfl, rfl,
            (hlike.one _ _).mpr ⟨'a', _, rfl, hplain⟩⟩
        · rw [if_neg hone, if_neg (not_or.mpr ⟨hmany, hone⟩)]
          exact (hlike.escaped c _ _).mpr ⟨c, _, rfl, rfl, hplain⟩

theorem length_shadow_le (escaped : Bool) (query : List Char) :
    (shadow escaped query).length ≤ query.length + if escaped then 1 else 0 := by
  induction query generalizing escaped with
  | nil => cases escaped <;> simp [shadow]
  | cons c query ih =>
    have hfalse := ih false
    have htrue := ih true
    simp only [Bool.false_eq_true, if_false, if_true] at hfalse htrue
    cases escaped with
    | false =>
      rw [shadow]
      split
      · simpa using htrue
      · simpa using hfalse
    | true =>
      rw [shadow]
      split
      · simp only [List.length_cons, if_true]
        omega
      · split
        · simp only [List.length_cons, if_true]
          omega
        · simp only [List.length_cons, if_true]
          omega

/-- Behind a backslash, something is lost. -/
theorem not_same_shadow_true (query : List Char) : ¬ same (shadow true query) ('\\' :: query) := by
  intro h
  have hlength := h.length_eq
  cases query with
  | nil =>
    rw [shadow, Like.same_cons] at h
    exact absurd h.1 (by decide)
  | cons c query =>
    have hle := length_shadow_le false query
    simp only [Bool.false_eq_true, if_false] at hle
    rw [shadow] at h hlength
    split at h
    next hmany =>
      rw [if_pos hmany] at hlength
      simp only [List.length_cons] at hlength
      omega
    next hmany =>
      rw [if_neg hmany] at hlength
      split at h
      next hone =>
        subst hone
        rw [Like.same_cons, Like.same_cons] at h
        exact absurd h.2.1 (by decide)
      next hone =>
        rw [if_neg hone] at hlength
        simp only [List.length_cons] at hlength
        omega

theorem notMem_of_same_shadow {query : List Char} (h : same (shadow false query) query) :
    '\\' ∉ query := by
  induction query with
  | nil => simp
  | cons c query ih =>
    rw [shadow] at h
    split at h
    next hesc =>
      subst hesc
      exact absurd h (not_same_shadow_true query)
    next hesc =>
      exact List.mem_cons.not.mpr (not_or.mpr ⟨Ne.symm hesc, ih (Like.same_cons.mp h).2⟩)

/-- A text that the pattern of a query is met by, without containing the query. -/
theorem not_containsQuery_shadow {query : String} (h : '\\' ∈ query.toList) :
    ¬ ContainsQuery query (String.ofList (shadow false query.toList)) := by
  intro hcontains
  have hle := length_shadow_le false query.toList
  have hsame := hcontains.eq_of_length_le (by simpa using hle)
  rw [String.toList_ofList] at hsame
  exact notMem_of_same_shadow hsame.symm h

/-- An index of one text. -/
def single (text : String) : RagSqliteIndex where
  table := ⟨[⟨"notes:0", "notes", "notes.md", text, 0, 0, ""⟩], List.nodup_singleton _⟩
  fits := by simp

/-- The search finds what contains the query just when there is no backslash in it. -/
theorem searchText_eq_hits_iff (hlike : Documented '\\' like) (query : String) (limit : UInt64) :
    (∀ index, searchText like index query limit = hits index query limit) ↔
      limit.toNat = 0 ∨ '\\' ∉ query.toList := by
  constructor
  · intro h
    by_contra hcond
    obtain ⟨hlimit, hesc⟩ := not_or.mp hcond
    have hsingle := h (single (String.ofList (shadow false query.toList)))
    rw [searchText, limitRows_eq (Nat.lt_of_le_of_lt (length_selected_le _ _) (RagSqliteIndex.fits _)),
      hits] at hsingle
    have hmatch : like ('%' :: (escapeQuery query.toList ++ ['%'])) (shadow false query.toList) =
        true := (hlike.many _ _).mpr ⟨[], _, rfl, like_shadow hlike false query.toList⟩
    have hmiss := not_containsQuery_shadow (not_not.mp hesc)
    simp [selected, single, hmatch, hmiss, hlimit] at hsingle
  · rintro (hlimit | hesc) index
    · rw [searchText, limitRows_eq (Nat.lt_of_le_of_lt (length_selected_le _ _) index.fits), hits,
        hlimit]
      simp
    · exact searchText_eq_hits hlike hesc index limit

/-- A path with a backslash is not found in the text it is copied from. -/
theorem searchText_ne_hits_backslash :
    ¬ ∀ index, searchText (patternCompare '\\') index "C:\\temp" 10 = hits index "C:\\temp" 10 := by
  intro h
  have hsearch : searchText (patternCompare '\\') (single "C:\\temp") "C:\\temp" 10 = [] := rfl
  have hhits : (hits (single "C:\\temp") "C:\\temp" 10).length = 1 := by decide
  rw [← h, hsearch] at hhits
  cases hhits

theorem searchText_eq_hits_percent_sign :
    searchText (patternCompare '\\') (single "now 50%_OFF") "50%_off" 10 =
      hits (single "now 50%_OFF") "50%_off" 10 :=
  (searchText_eq_hits_iff (Like.documented_patternCompare (by decide) (by decide)) _ _).mpr
    (.inr (by decide)) _

end Corvid.Rag
