import Corvid.Ast.Syntax
import Corvid.Lib.Keyed

/-!
# Symbols and scopes

The table of the top-level declarations of a file, the local scopes, and what a name is bound to.

## Main definitions

* `Binding`: what an identifier refers to
* `SymbolTable`: the declarations of a file, by name and by id
-/

namespace Corvid.Resolve

/-- The id of a top-level declaration: its place in the table. -/
abbrev DefId := ℕ

/-- The id of a parameter or of an assigned name. -/
abbrev LocalId := ℕ

/-- Names that are always in scope. -/
inductive BuiltIn where
  | int
  | float
  | string
  | bool
  | nothing
  | list
  | stream
  | result
  | option
  | weak
  | partialOf
  | resumeToken
  | ok
  | err
  | some
  | none
  | grounded
  | weakNew
  | weakUpgrade
  | streamMerge
  | resume
  | streamResumeToken
  | ask
  | choose
  | breakLoop
  | continueLoop
  | pass
deriving DecidableEq

def builtins : List (String × BuiltIn) :=
  [("Int", .int), ("Float", .float), ("String", .string), ("Bool", .bool), ("Nothing", .nothing),
    ("List", .list), ("Stream", .stream), ("Result", .result), ("Option", .option),
    ("Weak", .weak), ("Partial", .partialOf), ("ResumeToken", .resumeToken),
    ("Grounded", .grounded), ("Ok", .ok), ("Err", .err), ("Some", .some), ("None", .none),
    ("Weak::new", .weakNew), ("Weak::upgrade", .weakUpgrade), ("merge", .streamMerge),
    ("resume", .resume), ("resume_token", .streamResumeToken), ("ask", .ask),
    ("choose", .choose), ("break", .breakLoop), ("continue", .continueLoop), ("pass", .pass)]

/-- What an identifier refers to. -/
inductive Binding where
  | decl (id : DefId)
  | localVar (id : LocalId)
  | builtIn (builtIn : BuiltIn)
deriving DecidableEq

inductive DeclKind where
  | importDecl
  | importedUse
  | type
  | store
  | tool
  | prompt
  | agent
  | eval
  | test
  | fixture
  | mock
  | effect
  | model
  | server
deriving DecidableEq

/-- The name of a kind in an error. -/
def declKindLabel : DeclKind → String
  | .importDecl => "import"
  | .importedUse => "imported use"
  | .type => "type"
  | .store => "store"
  | .tool => "tool"
  | .prompt => "prompt"
  | .agent => "agent"
  | .eval => "eval"
  | .test => "test"
  | .fixture => "fixture"
  | .mock => "mock"
  | .effect => "effect"
  | .model => "model"
  | .server => "server"

/-- The id of an entry is its place in the table. -/
structure DeclEntry where
  name : String
  kind : DeclKind
  span : Span
deriving DecidableEq

/-- Every name leads to an entry. -/
structure SymbolTable where
  entries : List DeclEntry
  byName : Keyed.Map String DefId
  bound : ∀ {name id}, byName.lookup name = some id → id < entries.length

namespace SymbolTable

def empty : SymbolTable where
  entries := []
  byName := ∅
  bound h := by simp at h

variable (t : SymbolTable)

/-- An entry that no name leads to. -/
def allocateDef (name : String) (kind : DeclKind) (span : Span) : DefId × SymbolTable :=
  (t.entries.length,
    { t with
      entries := t.entries ++ [⟨name, kind, span⟩]
      bound := fun h => (t.bound h).trans (by simp) })

/-- The first declaration of a name wins; a later one is answered with the span of the first. -/
def declare (name : String) (kind : DeclKind) (span : Span) : Except Span DefId × SymbolTable :=
  match h : t.byName.lookup name with
  | some id => (.error (t.entries.get ⟨id, t.bound h⟩).span, t)
  | none =>
    (.ok t.entries.length,
      { entries := t.entries ++ [⟨name, kind, span⟩]
        byName := t.byName.insert name t.entries.length
        bound := by
          intro name' id hid
          rw [Keyed.lookup_insert_ite] at hid
          rw [List.length_append]
          split at hid
          · simp [← Option.some.inj hid]
          · exact (t.bound hid).trans (by simp) })

def lookup (name : String) : Option Binding :=
  match t.byName.lookup name with
  | some id => some (.decl id)
  | none => (builtins.lookup name).map .builtIn

def lookupDef (name : String) : Option DefId :=
  t.byName.lookup name

/-- The declaration of a name, with its entry. -/
def find (name : String) : Option (DefId × DeclEntry) :=
  match h : t.byName.lookup name with
  | some id => some (id, t.entries.get ⟨id, t.bound h⟩)
  | none => none

end SymbolTable

/-- Later entries of a scope overwrite earlier ones. -/
abbrev LocalScope := Keyed.Map String LocalId

end Corvid.Resolve
