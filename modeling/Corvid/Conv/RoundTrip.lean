import Corvid.Conv.Reading

/-!
# What comes back from a document

A value that is sent as a document and read back under its type is the same value. The exception is
the arguments of a resume token, which are read without a type: numbers, strings and booleans come
back, and lists of them, but an object is dropped and an argument that is nothing is refused.

## Main definitions

* `HasType`: the values of a type under a table of declarations
* `Value.keepsArguments`: the arguments of all tokens in a value come back

## Main results

* `roundTrips_iff`: the values that come back under their type
-/

namespace Corvid.Conv

open Interp (DefId Ty IrType IrField)

variable {F : Type} [JsonFloat F] (typesById : DefId → Option IrType)

/-! ### Values of a type -/

/-- The values of the types that can be sent. Floats are finite, and the fields of a struct are
exactly those that are declared. What the arguments of a resume token are is not part of its type. -/
inductive HasType : Value F → Ty → Prop where
  | int (n : Int64) : HasType (.int n) .int
  | float (x : F) (hfinite : JsonFloat.isFinite x = true) : HasType (.float x) .float
  | string (s : String) : HasType (.string s) .string
  | bool (b : Bool) : HasType (.bool b) .bool
  | nothing : HasType .nothing .nothing
  | list {items : List (Value F)} {elem : Ty} (hitems : ∀ v ∈ items, HasType v elem) :
      HasType (.list items) (.list elem)
  | optionNone (inner : Ty) : HasType .optionNone (.option inner)
  | optionSome {v : Value F} {inner : Ty} (hv : HasType v inner) :
      HasType (.optionSome v) (.option inner)
  | resultOk {v : Value F} {okTy : Ty} (hv : HasType v okTy) (errTy : Ty) :
      HasType (.resultOk v) (.result okTy errTy)
  | resultErr {v : Value F} (okTy : Ty) {errTy : Ty} (hv : HasType v errTy) :
      HasType (.resultErr v) (.result okTy errTy)
  | struct {id : DefId} {irType : IrType} {fields : List (String × Value F)}
      (htype : typesById id = some irType) (hsorted : SortedMap.Sorted fields)
      (hdeclared : ∀ name, (∃ v, fields.lookup name = some v) ↔
        ∃ field ∈ irType.fields, field.name = name)
      (hfields : ∀ field ∈ irType.fields, ∀ v, fields.lookup field.name = some v →
        HasType v field.ty) :
      HasType (.struct irType.id irType.name fields) (.struct id)
  | partialOf {id : DefId} {irType : IrType} {fields : List (String × Option (Value F))}
      (htype : typesById id = some irType) (hsorted : SortedMap.Sorted fields)
      (hdeclared : ∀ name, (∃ v, fields.lookup name = some v) ↔
        ∃ field ∈ irType.fields, field.name = name)
      (hfields : ∀ field ∈ irType.fields, ∀ v, fields.lookup field.name = some (some v) →
        HasType v field.ty) :
      HasType (.partialOf irType.id irType.name fields) (.partialOf (.struct id))
  | resumeToken (promptName : String) (args : List (Value F)) {delivered : List (StreamChunk F)}
      (providerSession : Option String) {inner : Ty}
      (hchunks : ∀ chunk ∈ delivered, HasType chunk.value inner)
      (hfinite : ∀ chunk ∈ delivered, JsonFloat.isFinite chunk.cost = true ∧
        JsonFloat.isFinite chunk.confidence = true) :
      HasType (.resumeToken promptName args delivered providerSession) (.resumeToken inner)

/-! ### Values that come back -/

mutual

/-- The arguments of all resume tokens within the value come back. -/
def Value.keepsArguments : Value F → Bool
  | .struct _ _ fields => fieldsKeepArguments fields
  | .list items => itemsKeepArguments items
  | .resultOk inner | .resultErr inner | .optionSome inner => inner.keepsArguments
  | .partialOf _ _ fields => partialFieldsKeepArguments fields
  | .resumeToken _ args delivered _ =>
    args.all Value.isArgument && chunksKeepArguments delivered
  | _ => true

def itemsKeepArguments : List (Value F) → Bool
  | [] => true
  | v :: vs => v.keepsArguments && itemsKeepArguments vs

def fieldsKeepArguments : List (String × Value F) → Bool
  | [] => true
  | (_, v) :: fields => v.keepsArguments && fieldsKeepArguments fields

def fieldKeepsArguments : Option (Value F) → Bool
  | some v => v.keepsArguments
  | none => true

def partialFieldsKeepArguments : List (String × Option (Value F)) → Bool
  | [] => true
  | (_, field) :: fields => fieldKeepsArguments field && partialFieldsKeepArguments fields

def chunkKeepsArguments : StreamChunk F → Bool
  | .mk value _ _ _ => value.keepsArguments

def chunksKeepArguments : List (StreamChunk F) → Bool
  | [] => true
  | chunk :: chunks => chunkKeepsArguments chunk && chunksKeepArguments chunks

end

theorem itemsKeepArguments_iff {items : List (Value F)} :
    itemsKeepArguments items = true ↔ ∀ v ∈ items, v.keepsArguments = true := by
  induction items with
  | nil => simp [itemsKeepArguments]
  | cons v vs ih => simp [itemsKeepArguments, ih]

theorem fieldsKeepArguments_iff {fields : List (String × Value F)} :
    fieldsKeepArguments fields = true ↔
      ∀ name v, (name, v) ∈ fields → v.keepsArguments = true := by
  induction fields with
  | nil => simp [fieldsKeepArguments]
  | cons field fields ih =>
    obtain ⟨name, v⟩ := field
    simp only [fieldsKeepArguments, Bool.and_eq_true, ih, List.mem_cons, Prod.mk.injEq]
    exact ⟨fun ⟨hv, hrest⟩ _ w hw => hw.elim (fun h => h.2 ▸ hv) (hrest _ w),
      fun h => ⟨h _ _ (.inl ⟨rfl, rfl⟩), fun n w hw => h n w (.inr hw)⟩⟩

theorem partialFieldsKeepArguments_iff {fields : List (String × Option (Value F))} :
    partialFieldsKeepArguments fields = true ↔
      ∀ name v, (name, some v) ∈ fields → v.keepsArguments = true := by
  induction fields with
  | nil => simp [partialFieldsKeepArguments]
  | cons field fields ih =>
    obtain ⟨name, _ | v⟩ := field
    · simp [partialFieldsKeepArguments, fieldKeepsArguments, ih]
    · simp only [partialFieldsKeepArguments, fieldKeepsArguments, Bool.and_eq_true, ih,
        List.mem_cons, Prod.mk.injEq, Option.some.injEq]
      exact ⟨fun ⟨hv, hrest⟩ _ w hw => hw.elim (fun h => h.2 ▸ hv) (hrest _ w),
        fun h => ⟨h _ _ (.inl ⟨rfl, rfl⟩), fun n w hw => h n w (.inr hw)⟩⟩

theorem chunksKeepArguments_iff {chunks : List (StreamChunk F)} :
    chunksKeepArguments chunks = true ↔
      ∀ chunk ∈ chunks, chunk.value.keepsArguments = true := by
  induction chunks with
  | nil => simp [chunksKeepArguments]
  | cons chunk chunks ih =>
    obtain ⟨value, cost, confidence, tokens⟩ := chunk
    simp [chunksKeepArguments, chunkKeepsArguments, StreamChunk.value, ih]

/-- The fields of a struct come back where each of them is read for its name. -/
theorem roundTrips_struct_iff {id : DefId} {irType : IrType} {fields : List (String × Value F)}
    (htype : typesById id = some irType) (hsorted : SortedMap.Sorted fields)
    (hdeclared : ∀ name, (∃ v, fields.lookup name = some v) ↔
      ∃ field ∈ irType.fields, field.name = name)
    (hread : ∀ field ∈ irType.fields, ∀ v, fields.lookup field.name = some v →
      (RoundTrips typesById v field.ty ↔ v.keepsArguments = true)) :
    RoundTrips typesById (.struct irType.id irType.name fields) (.struct id) ↔
      (Value.struct irType.id irType.name fields).keepsArguments = true := by
  have hmap : SortedMap.ofEntries (fieldsToJson fields) =
      fields.map fun field => (field.1, valueToJson field.2) := by
    rw [fieldsToJson_eq_map, SortedMap.ofEntries_eq_self (hsorted.map valueToJson)]
  have hfield {field : IrField} {v : Value F} (hlookup : fields.lookup field.name = some v) :
      structFieldFromJson typesById (SortedMap.ofEntries (fieldsToJson fields)) irType.name
        field = jsonToValue typesById (valueToJson v) field.ty := by
    rw [structFieldFromJson, hmap, SortedMap.lookup_map, hlookup, Option.map_some]
  have hcollect : RoundTrips typesById (.struct irType.id irType.name fields) (.struct id) ↔
      SortedMap.collect IrField.name (structFieldFromJson typesById
        (SortedMap.ofEntries (fieldsToJson fields)) irType.name) irType.fields [] =
          .ok fields := by
    rw [RoundTrips, valueToJson, Json.ofEntries, jsonToValue_struct typesById htype]
    exact Result.map_eq_ok_iff fun m m' h => (Value.struct.inj h).2.2
  rw [hcollect, Value.keepsArguments, fieldsKeepArguments_iff]
  constructor
  · intro h name v hmem
    have hlookup := (SortedMap.lookup_eq_some_iff hsorted).mpr hmem
    obtain ⟨field, hf, rfl⟩ := (hdeclared name).mp ⟨v, hlookup⟩
    -- Of several declarations of one name the last is what stands in the map.
    obtain ⟨field', hf', hname, w, hw, hlookup'⟩ := SortedMap.read_of_collect h hf
    cases hlookup.symm.trans hlookup'
    rw [← hname] at hlookup
    rw [hfield hlookup] at hw
    exact (hread field' hf' v hlookup).mp hw
  · intro h
    refine SortedMap.collect_eq_ok hsorted (fun field hf => ?_) fun name hother => ?_
    · obtain ⟨v, hlookup⟩ := (hdeclared field.name).mpr ⟨field, hf, rfl⟩
      refine ⟨v, ?_, hlookup⟩
      rw [hfield hlookup]
      exact (hread field hf v hlookup).mpr (h _ v (SortedMap.mem_of_lookup hlookup))
    · by_contra hsome
      obtain ⟨v, hlookup⟩ := Option.ne_none_iff_exists'.mp hsome
      obtain ⟨field, hf, hname⟩ := (hdeclared name).mp ⟨v, hlookup⟩
      exact hother field hf hname

omit [JsonFloat F] in
theorem partialFieldMap_sent (typeName : String) (fields : List (String × Json F)) :
    partialFieldMap (SortedMap.ofEntries [("tag", Json.string "partial"),
      ("type", .string typeName), ("fields", .object fields)]) = .ok fields := by
  simp [partialFieldMap, SortedMap.ofEntries, Json.tag, Json.asStr]

theorem roundTrips_partialOf_iff {id : DefId} {irType : IrType}
    {fields : List (String × Option (Value F))}
    (htype : typesById id = some irType) (hsorted : SortedMap.Sorted fields)
    (hdeclared : ∀ name, (∃ v, fields.lookup name = some v) ↔
      ∃ field ∈ irType.fields, field.name = name)
    (hread : ∀ field ∈ irType.fields, ∀ v, fields.lookup field.name = some (some v) →
      (RoundTrips typesById v field.ty ↔ v.keepsArguments = true)) :
    RoundTrips typesById (.partialOf irType.id irType.name fields) (.partialOf (.struct id)) ↔
      (Value.partialOf irType.id irType.name fields).keepsArguments = true := by
  have hmap : SortedMap.ofEntries (partialFieldsToJson fields) =
      fields.map fun field => (field.1, partialFieldToJson field.2) := by
    rw [partialFieldsToJson_eq_map, SortedMap.ofEntries_eq_self (hsorted.map partialFieldToJson)]
  have hfield {field : IrField} {entry : Option (Value F)}
      (hlookup : fields.lookup field.name = some entry) :
      partialFieldAt typesById (SortedMap.ofEntries (partialFieldsToJson fields)) field =
        partialFieldFromJson typesById (partialFieldToJson entry) field.ty := by
    rw [partialFieldAt, hmap, SortedMap.lookup_map, hlookup, Option.map_some]
  have hsome {v : Value F} {ty : Ty} :
      partialFieldFromJson typesById (partialFieldToJson (some v)) ty = .ok (some v) ↔
        RoundTrips typesById v ty := by
    rw [partialFieldFromJson_some]
    exact Result.map_eq_ok_iff fun v w h => Option.some.inj h
  have hcollect : RoundTrips typesById (.partialOf irType.id irType.name fields)
        (.partialOf (.struct id)) ↔
      SortedMap.collect IrField.name (partialFieldAt typesById
        (SortedMap.ofEntries (partialFieldsToJson fields))) irType.fields [] = .ok fields := by
    rw [RoundTrips, valueToJson, Json.ofEntries, Json.ofEntries,
      jsonToValue_partialOf typesById htype (partialFieldMap_sent irType.name _)]
    exact Result.map_eq_ok_iff fun m m' h => (Value.partialOf.inj h).2.2
  rw [hcollect, Value.keepsArguments, partialFieldsKeepArguments_iff]
  constructor
  · intro h name v hmem
    have hlookup := (SortedMap.lookup_eq_some_iff hsorted).mpr hmem
    obtain ⟨field, hf, rfl⟩ := (hdeclared name).mp ⟨some v, hlookup⟩
    obtain ⟨field', hf', hname, w, hw, hlookup'⟩ := SortedMap.read_of_collect h hf
    cases hlookup.symm.trans hlookup'
    rw [← hname] at hlookup
    rw [hfield hlookup] at hw
    exact (hread field' hf' v hlookup).mp (hsome.mp hw)
  · intro h
    refine SortedMap.collect_eq_ok hsorted (fun field hf => ?_) fun name hother => ?_
    · obtain ⟨entry, hlookup⟩ := (hdeclared field.name).mpr ⟨field, hf, rfl⟩
      refine ⟨entry, ?_, hlookup⟩
      rw [hfield hlookup]
      cases entry with
      | none => exact partialFieldFromJson_none typesById field.ty
      | some v =>
        exact hsome.mpr ((hread field hf v hlookup).mpr
          (h _ v (SortedMap.mem_of_lookup hlookup)))
    · by_contra hne
      obtain ⟨v, hlookup⟩ := Option.ne_none_iff_exists'.mp hne
      obtain ⟨field, hf, hname⟩ := (hdeclared name).mp ⟨v, hlookup⟩
      exact hother field hf hname

/-- The chunks come back as far as their values do, whatever was passed to the prompt. -/
theorem roundTrips_resumeToken_iff (promptName : String) (args : List (Value F))
    {delivered : List (StreamChunk F)} (providerSession : Option String) {inner : Ty}
    (hfinite : ∀ chunk ∈ delivered, JsonFloat.isFinite chunk.cost = true ∧
      JsonFloat.isFinite chunk.confidence = true) :
    RoundTrips typesById (.resumeToken promptName args delivered providerSession)
        (.resumeToken inner) ↔
      (∀ arg ∈ args, arg.isArgument = true) ∧
        ∀ chunk ∈ delivered, RoundTrips typesById chunk.value inner := by
  rw [RoundTrips, valueToJson, jsonToValue_resumeToken, ← chunksFromJson_eq_ok_iff typesById hfinite]
  simp only [← roundTrips_unknown_iff typesById, ← itemsFromJson_eq_ok_iff, Result.bind_eq_ok,
    Result.pure_eq_ok, Value.resumeToken.injEq]
  constructor
  · rintro ⟨as, has, cs, hcs, -, rfl, rfl, -⟩
    exact ⟨has, hcs⟩
  · rintro ⟨has, hcs⟩
    exact ⟨args, has, delivered, hcs, trivial, rfl, rfl, trivial⟩

/-- **Marshalling.** A value of a type is sent and read back as itself exactly where the arguments
of the resume tokens in it are numbers, strings, booleans and lists of plain values. -/
theorem roundTrips_iff {v : Value F} {ty : Ty} (h : HasType typesById v ty) :
    RoundTrips typesById v ty ↔ v.keepsArguments = true := by
  induction h with
  | int n => simp [RoundTrips, valueToJson, jsonToValue, Value.keepsArguments]
  | float x hfinite =>
    simp [RoundTrips, valueToJson, Json.ofFloat, hfinite, jsonToValue, Number.asF64,
      Value.keepsArguments]
  | string s => simp [RoundTrips, valueToJson, jsonToValue, Value.keepsArguments]
  | bool b => simp [RoundTrips, valueToJson, jsonToValue, Value.keepsArguments]
  | nothing => simp [RoundTrips, valueToJson, jsonToValue, Value.keepsArguments]
  | @list items elem hitems ih =>
    rw [Value.keepsArguments, itemsKeepArguments_iff, ← forall₂_congr ih,
      ← itemsFromJson_eq_ok_iff, RoundTrips, valueToJson, jsonToValue]
    exact Result.map_eq_ok_iff fun l l' h => Value.list.inj h
  | optionNone inner =>
    simp [RoundTrips, valueToJson, Json.ofEntries, jsonToValue, Value.keepsArguments]
  | optionSome hv ih =>
    rw [Value.keepsArguments, ← ih, RoundTrips, valueToJson, jsonToValue_optionSome]
    exact Result.map_eq_ok_iff fun v w h => Value.optionSome.inj h
  | resultOk hv errTy ih =>
    rw [Value.keepsArguments, ← ih, RoundTrips, valueToJson, jsonToValue_resultOk]
    exact Result.map_eq_ok_iff fun v w h => Value.resultOk.inj h
  | resultErr okTy hv ih =>
    rw [Value.keepsArguments, ← ih, RoundTrips, valueToJson, jsonToValue_resultErr]
    exact Result.map_eq_ok_iff fun v w h => Value.resultErr.inj h
  | struct htype hsorted hdeclared hfields ih =>
    exact roundTrips_struct_iff typesById htype hsorted hdeclared ih
  | partialOf htype hsorted hdeclared hfields ih =>
    exact roundTrips_partialOf_iff typesById htype hsorted hdeclared ih
  | resumeToken promptName args providerSession hchunks hfinite ih =>
    rw [roundTrips_resumeToken_iff typesById promptName args providerSession hfinite,
      Value.keepsArguments, Bool.and_eq_true, List.all_eq_true, chunksKeepArguments_iff,
      ← forall₂_congr ih]

/-! ### Tokens with arguments -/

section Tokens

/-- The rational numbers, and a number that is not finite. -/
instance : JsonFloat (Option ℚ) where
  isFinite := Option.isSome
  ofInt n := some n
  zero := some 0
  one := some 1

def decisions : DefId → Option IrType
  | 7 => some ⟨7, "Decision", [⟨"should_refund", .bool⟩]⟩
  | _ => none

/-- A token of a prompt that has delivered one decision, half of it. -/
def draftToken (arg : Value (Option ℚ)) : Value (Option ℚ) :=
  .resumeToken "draft" [arg]
    [.mk (.partialOf 7 "Decision" [("should_refund", some (.bool true))]) (some (1 / 2)) (some 1) 3]
    none

theorem hasType_draftToken (arg : Value (Option ℚ)) :
    HasType decisions (draftToken arg) (.resumeToken (.partialOf (.struct 7))) := by
  refine .resumeToken "draft" [arg] none (fun chunk hchunk => ?_) fun chunk hchunk => ?_
  · rw [List.mem_singleton.mp hchunk]
    have htype : decisions 7 = some ⟨7, "Decision", [⟨"should_refund", .bool⟩]⟩ := rfl
    refine .partialOf htype (List.pairwise_singleton _ _) (fun name => ?_)
      fun field hfield v hlookup => ?_
    · simp [SortedMap.lookup_cons_eq, eq_comm]
    · rw [List.mem_singleton.mp hfield] at hlookup ⊢
      cases hlookup
      exact .bool true
  · rw [List.mem_singleton.mp hchunk]
    exact ⟨rfl, rfl⟩

theorem roundTrips_iff_list :
    RoundTrips decisions (draftToken (.list [.int 1, .nothing]))
      (.resumeToken (.partialOf (.struct 7))) :=
  (roundTrips_iff decisions (hasType_draftToken _)).mpr (by decide)

/-- An option among the arguments is dropped, and an argument that is nothing is refused. -/
theorem not_roundTrips_draftToken :
    HasType decisions (draftToken .optionNone) (.resumeToken (.partialOf (.struct 7))) ∧
      ¬ RoundTrips decisions (draftToken .optionNone) (.resumeToken (.partialOf (.struct 7))) ∧
      HasType decisions (draftToken .nothing) (.resumeToken (.partialOf (.struct 7))) ∧
      ¬ RoundTrips decisions (draftToken .nothing) (.resumeToken (.partialOf (.struct 7))) := by
  have hrefused (arg : Value (Option ℚ)) (harg : arg.isArgument = false) :
      ¬ RoundTrips decisions (draftToken arg) (.resumeToken (.partialOf (.struct 7))) := by
    rw [draftToken, roundTrips_resumeToken_iff _ _ _ _ (by simp [JsonFloat.isFinite,
      StreamChunk.cost, StreamChunk.confidence])]
    simp [harg]
  exact ⟨hasType_draftToken _, hrefused _ rfl, hasType_draftToken _, hrefused _ rfl⟩

end Tokens

end Corvid.Conv
