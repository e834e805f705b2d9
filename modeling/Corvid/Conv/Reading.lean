import Corvid.Conv.Convert
import Corvid.Lib.Result

/-!
# Reading what was sent

A document that was made from a value is read case by case: the tags of options, results, partial
structs and resume tokens are found again, and the fields of a struct are read for their names. Under
an unknown type only plain values come back.

## Main definitions

* `RoundTrips`: the value comes back
* `Value.isPlain`, `Value.isArgument`: what is read back without a type

## Main results

* `jsonToValueLoose_valueToJson_iff`, `roundTrips_unknown_iff`: what comes back under an unknown type
* `jsonToValue_struct`, `jsonToValue_partialOf`: structs are collected field by field
-/

namespace Corvid.Conv

open Interp (DefId Ty IrType IrField)

variable {F : Type} [JsonFloat F] (typesById : DefId → Option IrType)

/-- The value is sent and read back under the type as itself. -/
def RoundTrips (v : Value F) (ty : Ty) : Prop :=
  jsonToValue typesById (valueToJson v) ty = .ok v

/-! ### Documents of unknown type -/

mutual

/-- Numbers, strings, booleans and nothing, and lists of such values. -/
def Value.isPlain : Value F → Bool
  | .int _ | .string _ | .bool _ | .nothing => true
  | .float x => JsonFloat.isFinite x
  | .list items => itemsPlain items
  | _ => false

def itemsPlain : List (Value F) → Bool
  | [] => true
  | v :: vs => v.isPlain && itemsPlain vs

end

theorem itemsPlain_iff {items : List (Value F)} :
    itemsPlain items = true ↔ ∀ v ∈ items, v.isPlain = true := by
  induction items with
  | nil => simp [itemsPlain]
  | cons v vs ih => simp [itemsPlain, ih]

mutual

/-- **The reading of a document of unknown type** brings back the plain values. -/
theorem jsonToValueLoose_valueToJson_iff (v : Value F) :
    jsonToValueLoose (valueToJson v) = v ↔ v.isPlain = true := by
  cases v with
  | int n => simp [valueToJson, jsonToValueLoose, Value.isPlain]
  | float x =>
    by_cases hx : JsonFloat.isFinite x = true
    · simp [valueToJson, Json.ofFloat, jsonToValueLoose, Value.isPlain, hx, Number.asI64,
        Number.asF64]
    · simp [valueToJson, Json.ofFloat, jsonToValueLoose, Value.isPlain, hx]
  | string s => simp [valueToJson, jsonToValueLoose, Value.isPlain]
  | bool b => simp [valueToJson, jsonToValueLoose, Value.isPlain]
  | nothing => simp [valueToJson, jsonToValueLoose, Value.isPlain]
  | list items =>
    rw [valueToJson, jsonToValueLoose, Value.isPlain, Value.list.injEq]
    exact itemsLoose_itemsToJson_iff items
  | struct | weak | resultOk | resultErr | optionSome | optionNone | grounded | partialOf
    | resumeToken | stream => simp [valueToJson, Json.ofEntries, jsonToValueLoose, Value.isPlain]

theorem itemsLoose_itemsToJson_iff (items : List (Value F)) :
    itemsLoose (itemsToJson items) = items ↔ itemsPlain items = true := by
  cases items with
  | nil => simp [itemsToJson, itemsLoose, itemsPlain]
  | cons v vs =>
    simp [itemsToJson, itemsLoose, itemsPlain, jsonToValueLoose_valueToJson_iff v,
      itemsLoose_itemsToJson_iff vs]

end

/-- What comes back as an argument of a resume token: nothing itself does not. -/
def Value.isArgument : Value F → Bool
  | .nothing => false
  | v => v.isPlain

theorem roundTrips_unknown_iff (v : Value F) :
    RoundTrips typesById v .unknown ↔ v.isArgument = true := by
  have hread (hnull : valueToJson v ≠ .null) :
      RoundTrips typesById v .unknown ↔ v.isPlain = true := by
    have hloose : jsonToValue typesById (valueToJson v) .unknown =
        .ok (jsonToValueLoose (valueToJson v)) := by
      revert hnull
      cases valueToJson v <;> simp [jsonToValue]
    rw [RoundTrips, hloose, Except.ok.injEq, jsonToValueLoose_valueToJson_iff]
  cases v with
  | nothing => simp [RoundTrips, valueToJson, jsonToValue, Value.isArgument]
  | float x =>
    by_cases hx : JsonFloat.isFinite x = true
    · exact hread (by simp [valueToJson, Json.ofFloat, hx])
    · simp [RoundTrips, valueToJson, Json.ofFloat, jsonToValue, Value.isArgument, Value.isPlain,
        hx]
  | int | string | bool | struct | list | weak | resultOk | resultErr | optionSome | optionNone
    | grounded | partialOf | resumeToken | stream =>
    exact hread (by simp [valueToJson, Json.ofEntries])

/-! ### Reading what was sent -/

theorem itemsFromJson_eq_ok_iff {items : List (Value F)} {elem : Ty} :
    itemsFromJson typesById (itemsToJson items) elem = .ok items ↔
      ∀ v ∈ items, RoundTrips typesById v elem := by
  induction items with
  | nil => simp [itemsToJson, itemsFromJson]
  | cons v vs ih =>
    rw [itemsToJson, itemsFromJson, List.forall_mem_cons, ← ih]
    simp only [Result.bind_eq_ok, Result.pure_eq_ok, List.cons.injEq]
    constructor
    · rintro ⟨w, hw, ws, hws, rfl, rfl⟩
      exact ⟨hw, hws⟩
    · rintro ⟨hv, hvs⟩
      exact ⟨v, hv, vs, hvs, rfl, rfl⟩

section Tagged

omit [JsonFloat F]

@[simp] theorem tag_tagged (tag key : String) (raw : Json F) (hkey : key ≠ "tag") :
    Json.tag (SortedMap.ofEntries [("tag", .string tag), (key, raw)]) = some tag := by
  simp [SortedMap.ofEntries, Json.tag, Json.asStr, hkey.symm]

theorem lookup_tagged (tag key : String) (raw : Json F) :
    (SortedMap.ofEntries [("tag", .string tag), (key, raw)]).lookup key = some raw := by
  simp [SortedMap.ofEntries]

@[simp] theorem tag_only (tag : String) :
    Json.tag (SortedMap.ofEntries [("tag", (.string tag : Json F))]) = some tag := by
  simp [SortedMap.ofEntries, Json.tag, Json.asStr]

end Tagged

theorem jsonToValue_optionSome (raw : Json F) (inner : Ty) :
    jsonToValue typesById (.ofEntries [("tag", .string "some"), ("value", raw)]) (.option inner) =
      (do let value ← jsonToValue typesById raw inner; return .optionSome value) := by
  have htag := tag_tagged "some" "value" raw (by simp)
  rw [Json.ofEntries, jsonToValue]
  simp only [htag]
  split
  · simp_all [lookup_tagged]
  · rename_i h
    cases (lookup_tagged "some" "value" raw).symm.trans h
    rfl

theorem jsonToValue_resultOk (raw : Json F) (okTy errTy : Ty) :
    jsonToValue typesById (.ofEntries [("tag", .string "ok"), ("ok", raw)]) (.result okTy errTy) =
      (do let value ← jsonToValue typesById raw okTy; return .resultOk value) := by
  have htag := tag_tagged "ok" "ok" raw (by simp)
  rw [Json.ofEntries, jsonToValue]
  simp only [htag]
  split
  · simp_all [lookup_tagged]
  · rename_i h
    cases (lookup_tagged "ok" "ok" raw).symm.trans h
    rfl

theorem jsonToValue_resultErr (raw : Json F) (okTy errTy : Ty) :
    jsonToValue typesById (.ofEntries [("tag", .string "err"), ("err", raw)])
        (.result okTy errTy) =
      (do let value ← jsonToValue typesById raw errTy; return .resultErr value) := by
  have htag := tag_tagged "err" "err" raw (by simp)
  rw [Json.ofEntries, jsonToValue]
  simp only [htag]
  split
  · simp_all [lookup_tagged]
  · rename_i h
    cases (lookup_tagged "err" "err" raw).symm.trans h
    rfl

/-- The reading of a declared field of a struct. -/
def structFieldFromJson (map : List (String × Json F)) (structName : String) (field : IrField) :
    Except ConvError (Value F) :=
  match map.lookup field.name with
  | none => .error (.missingField structName field.name)
  | some raw => jsonToValue typesById raw field.ty

theorem jsonToValue_struct {id : DefId} {irType : IrType} (htype : typesById id = some irType)
    (map : List (String × Json F)) :
    jsonToValue typesById (.object map) (.struct id) =
      (do
        let fields ← SortedMap.collect IrField.name
          (structFieldFromJson typesById map irType.name) irType.fields []
        return .struct irType.id irType.name fields) := by
  rw [jsonToValue, structType, htype]
  change (List.foldlM (m := Except ConvError) _ [] irType.fields >>= _) = _
  congr 1
  unfold SortedMap.collect
  congr 1
  funext out field
  unfold structFieldFromJson
  split
  · rename_i hraw
    simp only [hraw]
    rfl
  · rename_i hraw
    simp only [hraw]

/-- The reading of a declared field of a partial struct. -/
def partialFieldAt (fieldMap : List (String × Json F)) (field : IrField) :
    Except ConvError (Option (Value F)) :=
  match fieldMap.lookup field.name with
  | none => .ok none
  | some raw => partialFieldFromJson typesById raw field.ty

theorem jsonToValue_partialOf {id : DefId} {irType : IrType} (htype : typesById id = some irType)
    {map fieldMap : List (String × Json F)} (hmap : partialFieldMap map = .ok fieldMap) :
    jsonToValue typesById (.object map) (.partialOf (.struct id)) =
      (do
        let fields ← SortedMap.collect IrField.name (partialFieldAt typesById fieldMap)
          irType.fields []
        return .partialOf irType.id irType.name fields) := by
  have hstruct : partialType typesById (.struct id) = pure irType := by
    rw [partialType, structType, htype]
    rfl
  rw [jsonToValue, partialFromJson, hstruct, pure_bind]
  split
  · simp_all
  · rename_i h
    cases hmap.symm.trans h
    congr 1
    unfold SortedMap.collect
    congr 1
    funext out field
    unfold partialFieldAt
    split
    · rename_i hraw
      simp only [hraw]
      rfl
    · rename_i hraw
      simp only [hraw]

theorem partialFieldFromJson_some (v : Value F) (ty : Ty) :
    partialFieldFromJson typesById (partialFieldToJson (some v)) ty =
      (do let value ← jsonToValue typesById (valueToJson v) ty; return some value) := by
  have htag := tag_tagged "complete" "value" (valueToJson v) (by simp)
  rw [partialFieldToJson, Json.ofEntries, partialFieldFromJson]
  simp only [htag]
  split
  · simp_all [lookup_tagged]
  · rename_i h
    cases (lookup_tagged "complete" "value" (valueToJson v)).symm.trans h
    rfl

theorem partialFieldFromJson_none (ty : Ty) :
    partialFieldFromJson typesById (partialFieldToJson none : Json F) ty = .ok none := by
  rw [partialFieldToJson, Json.ofEntries, partialFieldFromJson]
  simp only [tag_only]

theorem resumeChunkFromJson_object {map : List (String × Json F)} {raw : Json F}
    (hraw : map.lookup "value" = some raw) (inner : Ty) :
    resumeChunkFromJson typesById (.object map) inner =
      (fun value => .mk value (((map.lookup "cost").bind Json.asF64).getD JsonFloat.zero)
        (((map.lookup "confidence").bind Json.asF64).getD JsonFloat.one)
        (((map.lookup "tokens").bind Json.asU64).getD 0)) <$> jsonToValue typesById raw inner := by
  rw [resumeChunkFromJson]
  split
  · simp_all
  · rename_i h
    cases hraw.symm.trans h
    rfl

theorem resumeChunkFromJson_eq_ok_iff {chunk : StreamChunk F} {inner : Ty}
    (hcost : JsonFloat.isFinite chunk.cost = true)
    (hconfidence : JsonFloat.isFinite chunk.confidence = true) :
    resumeChunkFromJson typesById (chunkToJson chunk) inner = .ok chunk ↔
      RoundTrips typesById chunk.value inner := by
  obtain ⟨value, cost, confidence, tokens⟩ := chunk
  have hinjective : Function.Injective fun v : Value F =>
      StreamChunk.mk v cost confidence tokens := fun v w hvw => (StreamChunk.mk.inj hvw).1
  simp only [StreamChunk.cost, StreamChunk.confidence] at hcost hconfidence
  rw [chunkToJson, Json.ofEntries, Json.ofFloat_of_finite hcost,
    Json.ofFloat_of_finite hconfidence]
  generalize hmap : SortedMap.ofEntries [("value", valueToJson value),
    ("cost", Json.number (.float cost)), ("confidence", Json.number (.float confidence)),
    ("tokens", Json.number (.int tokens.toNat))] = map
  have hvalue : map.lookup "value" = some (valueToJson value) := by
    simp [← hmap, SortedMap.ofEntries]
  have hcostAt : (map.lookup "cost").bind Json.asF64 = some cost := by
    simp [← hmap, SortedMap.ofEntries, Json.asF64, Number.asF64]
  have hconfidenceAt : (map.lookup "confidence").bind Json.asF64 = some confidence := by
    simp [← hmap, SortedMap.ofEntries, Json.asF64, Number.asF64]
  have htokensAt : (map.lookup "tokens").bind Json.asU64 = some tokens := by
    have hlookup : map.lookup "tokens" = some (.number (.int tokens.toNat)) := by
      simp [← hmap, SortedMap.ofEntries]
    rw [hlookup, Option.bind_some]
    exact Number.asU64_toNat (F := F) tokens
  rw [resumeChunkFromJson_object typesById hvalue, hcostAt, hconfidenceAt, htokensAt]
  exact Result.map_eq_ok_iff hinjective

theorem chunksFromJson_eq_ok_iff {chunks : List (StreamChunk F)} {inner : Ty}
    (hfinite : ∀ chunk ∈ chunks, JsonFloat.isFinite chunk.cost = true ∧
      JsonFloat.isFinite chunk.confidence = true) :
    chunksFromJson typesById (chunksToJson chunks) inner = .ok chunks ↔
      ∀ chunk ∈ chunks, RoundTrips typesById chunk.value inner := by
  induction chunks with
  | nil => simp [chunksToJson, chunksFromJson]
  | cons chunk chunks ih =>
    obtain ⟨⟨hcost, hconfidence⟩, hrest⟩ := List.forall_mem_cons.mp hfinite
    rw [chunksToJson, chunksFromJson, List.forall_mem_cons, ← ih hrest,
      ← resumeChunkFromJson_eq_ok_iff typesById hcost hconfidence]
    simp only [Result.bind_eq_ok, Result.pure_eq_ok, List.cons.injEq]
    constructor
    · rintro ⟨c, hc, cs, hcs, rfl, rfl⟩
      exact ⟨hc, hcs⟩
    · rintro ⟨hc, hcs⟩
      exact ⟨chunk, hc, chunks, hcs, rfl, rfl⟩

theorem jsonToValue_resumeToken (promptName : String) (args delivered : List (Json F))
    (providerSession : Option String) (inner : Ty) :
    jsonToValue typesById (.ofEntries [("tag", .string "resume_token"),
        ("prompt", .string promptName), ("args", .array args), ("delivered", .array delivered),
        ("provider_session", providerSession.elim .null .string)]) (.resumeToken inner) =
      (do
        let args ← itemsFromJson typesById args .unknown
        let delivered ← chunksFromJson typesById delivered inner
        return .resumeToken promptName args delivered providerSession) := by
  have hsession : (providerSession.elim Json.null Json.string : Json F).asStr =
      providerSession := by
    cases providerSession <;> rfl
  have hstring (s : String) : (Json.string s : Json F).asStr = some s := rfl
  rw [Json.ofEntries, jsonToValue, resumeTokenFromJson]
  simp [SortedMap.ofEntries, Json.tag, arrayAt, hsession, hstring]

end Corvid.Conv
