import Corvid.Conv.Model

/-!
# Marshalling

Values are sent as documents without their types, except that options, results, partial structs and
resume tokens carry a tag. A document is read back under the type that is expected of it.

## Main definitions

* `valueToJson`, `jsonToValue`: the two directions
* `jsonToValueLoose`: the reading under an unknown type
-/

namespace Corvid.Conv

open Interp (DefId Ty IrType IrField ProvenanceChain ProvenanceEntry ProvenanceKind)

variable {F : Type} [JsonFloat F]

/-! ### Values to documents -/

def provenanceLabel : ProvenanceKind → String
  | .retrieval => "retrieval"
  | .promptTransform => "prompt"
  | .agentHandoff => "agent"
  | .severed _ => "severed"

def sourceToJson (entry : ProvenanceEntry) : Json F :=
  .ofEntries [("kind", .string (provenanceLabel entry.kind)), ("name", .string entry.name),
    ("timestamp_ms", .number (.int entry.timestampMs))]

mutual

def valueToJson : Value F → Json F
  | .int n => .number (.int n.toInt)
  | .float x => .ofFloat x
  | .string s => .string s
  | .bool b => .bool b
  | .nothing => .null
  | .struct _ _ fields => .ofEntries (fieldsToJson fields)
  | .list items => .array (itemsToJson items)
  | .weak referent => .ofEntries [("tag", .string "weak"), ("value", referentToJson referent)]
  | .resultOk inner => .ofEntries [("tag", .string "ok"), ("ok", valueToJson inner)]
  | .resultErr inner => .ofEntries [("tag", .string "err"), ("err", valueToJson inner)]
  | .optionSome inner => .ofEntries [("tag", .string "some"), ("value", valueToJson inner)]
  | .optionNone => .ofEntries [("tag", .string "none")]
  | .grounded inner provenance _ => .ofEntries [("tag", .string "grounded"),
      ("value", valueToJson inner), ("sources", .array (provenance.map sourceToJson))]
  | .partialOf _ typeName fields => .ofEntries [("tag", .string "partial"),
      ("type", .string typeName), ("fields", .ofEntries (partialFieldsToJson fields))]
  | .resumeToken promptName args delivered providerSession =>
    .ofEntries [("tag", .string "resume_token"), ("prompt", .string promptName),
      ("args", .array (itemsToJson args)), ("delivered", .array (chunksToJson delivered)),
      ("provider_session", providerSession.elim .null .string)]
  | .stream ref => .ofEntries [("tag", .string "stream"),
      ("backpressure", .string ref.backpressure.label)]

def referentToJson : Option (Value F) → Json F
  | some v => valueToJson v
  | none => .null

def itemsToJson : List (Value F) → List (Json F)
  | [] => []
  | v :: vs => valueToJson v :: itemsToJson vs

def fieldsToJson : List (String × Value F) → List (String × Json F)
  | [] => []
  | (name, v) :: fields => (name, valueToJson v) :: fieldsToJson fields

def partialFieldToJson : Option (Value F) → Json F
  | some v => .ofEntries [("tag", .string "complete"), ("value", valueToJson v)]
  | none => .ofEntries [("tag", .string "streaming")]

def partialFieldsToJson : List (String × Option (Value F)) → List (String × Json F)
  | [] => []
  | (name, field) :: fields => (name, partialFieldToJson field) :: partialFieldsToJson fields

def chunkToJson : StreamChunk F → Json F
  | .mk value cost confidence tokens => .ofEntries [("value", valueToJson value),
      ("cost", .ofFloat cost), ("confidence", .ofFloat confidence),
      ("tokens", .number (.int tokens.toNat))]

def chunksToJson : List (StreamChunk F) → List (Json F)
  | [] => []
  | chunk :: chunks => chunkToJson chunk :: chunksToJson chunks

end

theorem itemsToJson_eq_map (items : List (Value F)) :
    itemsToJson items = items.map valueToJson := by
  induction items with
  | nil => rfl
  | cons v vs ih => rw [itemsToJson, List.map_cons, ih]

theorem fieldsToJson_eq_map (fields : List (String × Value F)) :
    fieldsToJson fields = fields.map fun field => (field.1, valueToJson field.2) := by
  induction fields with
  | nil => rfl
  | cons field fields ih => rw [fieldsToJson, List.map_cons, ih]

theorem partialFieldsToJson_eq_map (fields : List (String × Option (Value F))) :
    partialFieldsToJson fields = fields.map fun field => (field.1, partialFieldToJson field.2) := by
  induction fields with
  | nil => rfl
  | cons field fields ih => rw [partialFieldsToJson, List.map_cons, ih]

theorem chunksToJson_eq_map (chunks : List (StreamChunk F)) :
    chunksToJson chunks = chunks.map chunkToJson := by
  induction chunks with
  | nil => rfl
  | cons chunk chunks ih => rw [chunksToJson, List.map_cons, ih]

/-! ### Documents to values -/

mutual

/-- The reading of a document of which nothing is known. There are no structs without their type:
an object is dropped. -/
def jsonToValueLoose : Json F → Value F
  | .null => .nothing
  | .bool b => .bool b
  | .number n =>
    match n.asI64 with
    | some i => .int i
    | none =>
      match n.asF64 with
      | some x => .float x
      | none => .nothing
  | .string s => .string s
  | .array items => .list (itemsLoose items)
  | .object _ => .nothing

def itemsLoose : List (Json F) → List (Value F)
  | [] => []
  | item :: items => jsonToValueLoose item :: itemsLoose items

end

theorem itemsLoose_eq_map (items : List (Json F)) :
    itemsLoose items = items.map jsonToValueLoose := by
  induction items with
  | nil => rfl
  | cons item items ih => rw [itemsLoose, List.map_cons, ih]

/-- The object that holds the fields of a partial struct, which stands in the document itself where
the document has no tag of its own. -/
def partialFieldMap (map : List (String × Json F)) :
    Except ConvError (List (String × Json F)) :=
  if Json.tag map = some "partial" then
    match map.lookup "fields" with
    | some (.object fields) => .ok fields
    | _ => .error (.typeMismatch "Partial fields object" "missing `fields` field")
  else .ok map

omit [JsonFloat F] in
theorem sizeOf_partialFieldMap {map fields : List (String × Json F)}
    (h : partialFieldMap map = .ok fields) : sizeOf fields ≤ sizeOf map := by
  unfold partialFieldMap at h
  split at h
  · split at h
    · rename_i hlookup
      cases h
      have := Json.sizeOf_lookup hlookup
      simp only [Json.object.sizeOf_spec] at this
      omega
    · cases h
  · cases h
    exact le_refl _

variable (typesById : DefId → Option IrType)

/-- The declaration of a struct. -/
def structType (id : DefId) : Except ConvError IrType :=
  match typesById id with
  | some irType => .ok irType
  | none => .error (.unknownStructType id)

/-- The declaration of the struct whose fields a partial value may lack. -/
def partialType : Ty → Except ConvError IrType
  | .struct id => structType typesById id
  | other => .error (.typeMismatch "Partial<struct>" other.displayName)

/-- The items of the array under the key, of which there are none where it is absent. -/
def arrayAt (map : List (String × Json F)) (key : String) : List (Json F) :=
  match map.lookup key with
  | some (.array items) => items
  | _ => []

omit [JsonFloat F] in
theorem sizeOf_arrayAt (map : List (String × Json F)) (key : String) :
    sizeOf (arrayAt map key) ≤ sizeOf map := by
  unfold arrayAt
  split
  · rename_i hlookup
    have := Json.sizeOf_lookup hlookup
    simp only [Json.array.sizeOf_spec] at this
    omega
  · cases map with
    | nil => simp
    | cons e m =>
      simp only [List.nil.sizeOf_spec, List.cons.sizeOf_spec]
      omega

mutual

/-- The reading of a document under the expected type. An absent value is honoured only where
nothing is expected. -/
def jsonToValue (json : Json F) (expected : Ty) : Except ConvError (Value F) :=
  match expected, json with
  | .int, .number n =>
    match n.asI64 with
    | some i => .ok (.int i)
    | none => .error (.typeMismatch "Int" "non-integer number")
  | .float, .number n =>
    match n.asF64 with
    | some x => .ok (.float x)
    | none => .error (.typeMismatch "Float" "non-float number")
  | .string, .string s => .ok (.string s)
  | .bool, .bool b => .ok (.bool b)
  | .nothing, .null => .ok .nothing
  | expected, .null => .error (.typeMismatch expected.displayName "null")
  | .list elem, .array items => do
    let values ← itemsFromJson items elem
    return .list values
  | .stream _, got => .error (.typeMismatch "Stream" got.kind)
  | .partialOf inner, .object map => partialFromJson map inner
  | .resumeToken inner, .object map => resumeTokenFromJson map inner
  | .option inner, .object map =>
    match Json.tag map with
    | some "some" =>
      match _h : map.lookup "value" with
      | none => .error (.typeMismatch "Option::Some payload" "missing `value` field")
      | some raw => do
        let value ← jsonToValue raw inner
        return .optionSome value
    | some "none" => .ok .optionNone
    | _ => .error (.typeMismatch (Ty.option inner).displayName "object")
  | .result okTy errTy, .object map =>
    match Json.tag map with
    | some "ok" =>
      match _h : map.lookup "ok" with
      | none => .error (.typeMismatch "Result::Ok payload" "missing `ok` field")
      | some raw => do
        let value ← jsonToValue raw okTy
        return .resultOk value
    | some "err" =>
      match _h : map.lookup "err" with
      | none => .error (.typeMismatch "Result::Err payload" "missing `err` field")
      | some raw => do
        let value ← jsonToValue raw errTy
        return .resultErr value
    | _ => .error (.typeMismatch (Ty.result okTy errTy).displayName "object")
  | .struct id, .object map => do
    let irType ← structType typesById id
    let fields ← irType.fields.foldlM (fun out field =>
      match _h : map.lookup field.name with
      | none => .error (.missingField irType.name field.name)
      | some raw => do
        let value ← jsonToValue raw field.ty
        return SortedMap.insert field.name value out) []
    return .struct irType.id irType.name fields
  -- Lossy: what an object holds is not kept.
  | .unknown, json => .ok (jsonToValueLoose json)
  | expected, got => .error (.typeMismatch expected.displayName got.kind)
termination_by 2 * sizeOf json
decreasing_by
  all_goals simp_wf
  all_goals first | exact (Json.sizeOf_lookup _h).trans (by omega) | omega

def itemsFromJson (items : List (Json F)) (elem : Ty) : Except ConvError (List (Value F)) :=
  match items with
  | [] => .ok []
  | item :: items => do
    let value ← jsonToValue item elem
    let values ← itemsFromJson items elem
    return value :: values
termination_by 2 * sizeOf items
decreasing_by
  all_goals simp_wf
  all_goals omega

def resumeTokenFromJson (map : List (String × Json F)) (inner : Ty) :
    Except ConvError (Value F) :=
  if Json.tag map ≠ some "resume_token" then
    .error (.typeMismatch "resume_token" (Json.object map).kind)
  else
    match (map.lookup "prompt").bind Json.asStr with
    | none => .error (.typeMismatch "resume token prompt" "missing `prompt` field")
    | some promptName => do
      let args ← itemsFromJson (arrayAt map "args") .unknown
      let delivered ← chunksFromJson (arrayAt map "delivered") inner
      return .resumeToken promptName args delivered
        ((map.lookup "provider_session").bind Json.asStr)
termination_by 2 * sizeOf map + 1
decreasing_by
  all_goals exact Nat.lt_succ_of_le (Nat.mul_le_mul_left 2 (sizeOf_arrayAt map _))

def resumeChunkFromJson (raw : Json F) (inner : Ty) : Except ConvError (StreamChunk F) :=
  match raw with
  | .object map =>
    match _h : map.lookup "value" with
    | none => .error (.typeMismatch "resume token chunk value" "missing `value` field")
    | some raw => do
      let value ← jsonToValue raw inner
      return .mk value (((map.lookup "cost").bind Json.asF64).getD JsonFloat.zero)
        (((map.lookup "confidence").bind Json.asF64).getD JsonFloat.one)
        (((map.lookup "tokens").bind Json.asU64).getD 0)
  | got => .error (.typeMismatch "resume token delivered chunk" got.kind)
termination_by 2 * sizeOf raw
decreasing_by
  simp_wf
  exact (Json.sizeOf_lookup _h).trans (by omega)

def chunksFromJson (items : List (Json F)) (inner : Ty) :
    Except ConvError (List (StreamChunk F)) :=
  match items with
  | [] => .ok []
  | item :: items => do
    let chunk ← resumeChunkFromJson item inner
    let chunks ← chunksFromJson items inner
    return chunk :: chunks
termination_by 2 * sizeOf items
decreasing_by
  all_goals simp_wf
  all_goals omega

def partialFromJson (map : List (String × Json F)) (inner : Ty) : Except ConvError (Value F) := do
  let irType ← partialType typesById inner
  match hmap : partialFieldMap map with
  | .error e => .error e
  | .ok fieldMap =>
    let fields ← irType.fields.foldlM (fun out field =>
      match _h : fieldMap.lookup field.name with
      | none => .ok (SortedMap.insert field.name none out)
      | some raw => do
        let value ← partialFieldFromJson raw field.ty
        return SortedMap.insert field.name value out) []
    return .partialOf irType.id irType.name fields
termination_by 2 * sizeOf map + 1
decreasing_by
  have hle := sizeOf_partialFieldMap hmap
  simp_wf
  exact (Json.sizeOf_lookup _h).trans_le hle

def partialFieldFromJson (raw : Json F) (fieldTy : Ty) : Except ConvError (Option (Value F)) :=
  match raw with
  | .object map =>
    match Json.tag map with
    | some "streaming" => .ok none
    | some "complete" =>
      match _h : map.lookup "value" with
      | none => .error (.typeMismatch "Partial complete value" "missing `value` field")
      | some raw => do
        let value ← jsonToValue raw fieldTy
        return some value
    | _ => do
      let value ← jsonToValue (.object map) fieldTy
      return some value
  | other => do
    let value ← jsonToValue other fieldTy
    return some value
termination_by 2 * sizeOf raw + 1
decreasing_by
  · have := Json.sizeOf_lookup _h
    simp_wf
    omega
  all_goals simp_wf

end

end Corvid.Conv
