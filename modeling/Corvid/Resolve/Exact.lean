import Corvid.Resolve.Uses

/-!
# When the dependency graph is exact

The graph of a file is exact where its forward edges are the references of the declarations, its
reverse edges are the converse of these, and a redefinition affects what is reached against them.
That is so just when no declaration is referred to only from a place that the walk does not come
to, and declarations that share an owner agree on what they refer to.

## Main definitions

* `Exact`: the edges are the references
* `Tracked`: every reference is also made where the walk comes to

## Main results

* `exact_iff_tracked`: the graph is exact just where the references are tracked
-/

namespace Corvid.Resolve

open Corvid.Ast

/-- The edges are the references, the reverse edges are their converse, and a redefinition affects
the declarations from which a chain of edges leads to it. -/
structure Exact (it : Iteration) (file : File) (resolved : Resolved) : Prop where
  forward : ∀ decl ∈ file.decls, ∀ owner, declDefId resolved decl = some owner → ∀ id, id ≠ owner →
    (id ∈ (buildDepGraph it file resolved).dependenciesOf owner ↔ Refers resolved decl id)
  reverse : ∀ owner id, owner ∈ (buildDepGraph it file resolved).dependentsOf id ↔
    id ∈ (buildDepGraph it file resolved).dependenciesOf owner
  transitive : ∀ owner id,
    owner ∈ (buildDepGraph it file resolved).transitiveDependents it id ↔
      Relation.TransGen
        (fun a b => b ∈ (buildDepGraph it file resolved).dependenciesOf a) owner id

/-- The last declaration with the owner. -/
def lastOwned (resolved : Resolved) (decls : List Decl) (owner : DefId) : Option Decl :=
  decls.reverse.find? fun decl => declDefId resolved decl = some owner

/-- The last declaration of an owner makes each of its references also where the walk comes to, and
the declarations of an owner make the same references. -/
structure Tracked (file : File) (resolved : Resolved) : Prop where
  collected : ∀ owner, ∀ decl ∈ lastOwned resolved file.decls owner, ∀ use ∈ uses decl,
    use.position.visited = false → ∀ id, id ≠ owner → use.reference.target resolved = some id →
      ∃ other ∈ uses decl, other.position.visited ∧ other.reference.target resolved = some id
  shared : ∀ decl ∈ file.decls, ∀ other ∈ file.decls, ∀ owner,
    declDefId resolved decl = some owner → declDefId resolved other = some owner →
      ∀ id, id ≠ owner → Refers resolved decl id → Refers resolved other id

variable {it : Iteration} {file : File} {resolved : Resolved} {decls : List Decl} {decl : Decl}
  {owner id : DefId} {graph : DepGraph}

/-! ### The edges of the graph -/

theorem Finds.refers (h : Finds resolved (uses decl) id) : Refers resolved decl id := by
  obtain ⟨use, huse, -, htarget⟩ := h
  exact ⟨use, huse, htarget⟩

theorem lastOwned_mem (h : decl ∈ lastOwned resolved decls owner) :
    decl ∈ decls ∧ declDefId resolved decl = some owner :=
  ⟨List.mem_reverse.mp (List.mem_of_find?_eq_some h), by simpa using List.find?_some h⟩

theorem exists_lastOwned (hmem : decl ∈ decls) (h : declDefId resolved decl = some owner) :
    ∃ last, last ∈ lastOwned resolved decls owner := by
  refine Option.isSome_iff_exists.mp (List.find?_isSome.mpr ⟨decl, ?_, ?_⟩)
  · exact List.mem_reverse.mpr hmem
  · exact decide_eq_true h

/-- The declarations that the walk collects for an owner. -/
theorem mem_deps : id ∈ (collectDeclDeps resolved ∅ decl).erase owner ↔
    id ≠ owner ∧ Finds resolved (uses decl) id := by
  rw [Finset.mem_erase, mem_collectDeclDeps]
  simp

theorem mem_foldl_addReverse {reverse : Keyed.Map DefId (Finset DefId)} {deps : List DefId}
    {d : DefId} :
    d ∈ ((deps.foldl (DepGraph.addReverse owner) reverse).lookup id).getD ∅ ↔
      d = owner ∧ id ∈ deps ∨ d ∈ (reverse.lookup id).getD ∅ := by
  induction deps generalizing reverse with
  | nil => simp
  | cons dep deps ih =>
    rw [List.foldl_cons, ih, DepGraph.addReverse, Keyed.lookup_insert_ite, List.mem_cons]
    by_cases h : id = dep
    · subst h
      simp only [if_true, Option.getD_some, Finset.mem_insert]
      tauto
    · simp [h]

theorem mem_dependentsOf_addDecl {d : DefId} :
    d ∈ (graph.addDecl it resolved decl).dependentsOf id ↔
      (declDefId resolved decl = some d ∧ id ≠ d ∧ Finds resolved (uses decl) id) ∨
      d ∈ graph.dependentsOf id := by
  rw [DepGraph.addDecl]
  cases howner : declDefId resolved decl with
  | none => simp
  | some owner =>
    rw [DepGraph.dependentsOf, mem_foldl_addReverse, it.mem_order, mem_deps, DepGraph.dependentsOf]
    refine or_congr_left ⟨?_, ?_⟩
    · rintro ⟨rfl, h⟩
      exact ⟨rfl, h⟩
    · rintro ⟨heq, h⟩
      obtain rfl := Option.some.inj heq
      exact ⟨rfl, h⟩

theorem dependenciesOf_addDecl : (graph.addDecl it resolved decl).dependenciesOf owner =
    if declDefId resolved decl = some owner then (collectDeclDeps resolved ∅ decl).erase owner
    else graph.dependenciesOf owner := by
  rw [DepGraph.addDecl]
  cases hdecl : declDefId resolved decl with
  | none => simp
  | some d =>
    rw [DepGraph.dependenciesOf, Keyed.lookup_insert_ite]
    by_cases h : d = owner
    · subst h
      simp
    · simp [h, Ne.symm h, DepGraph.dependenciesOf]

/-- An owner depends on what the last of its declarations names where the walk comes to. -/
theorem mem_dependenciesOf : id ∈ (buildDepGraph it file resolved).dependenciesOf owner ↔
    ∃ decl ∈ lastOwned resolved file.decls owner, id ≠ owner ∧ Finds resolved (uses decl) id := by
  obtain ⟨decls⟩ := file
  rw [buildDepGraph, lastOwned]
  induction decls using List.reverseRecOn with
  | nil => simp [DepGraph.empty, DepGraph.dependenciesOf]
  | append_singleton decls decl ih =>
    rw [List.foldl_append, List.foldl_cons, List.foldl_nil, dependenciesOf_addDecl,
      List.reverse_append, List.reverse_singleton, List.singleton_append, List.find?_cons]
    by_cases h : declDefId resolved decl = some owner
    · rw [if_pos h, mem_deps]
      simp [h]
    · rw [if_neg h, ih]
      simp [h]

/-- The dependents are those that some declaration of theirs makes so. -/
theorem mem_dependentsOf : owner ∈ (buildDepGraph it file resolved).dependentsOf id ↔
    ∃ decl ∈ file.decls, declDefId resolved decl = some owner ∧
      id ≠ owner ∧ Finds resolved (uses decl) id := by
  obtain ⟨decls⟩ := file
  rw [buildDepGraph]
  induction decls using List.reverseRecOn with
  | nil => simp [DepGraph.empty, DepGraph.dependentsOf]
  | append_singleton decls decl ih =>
    rw [List.foldl_append, List.foldl_cons, List.foldl_nil, mem_dependentsOf_addDecl, ih]
    simp only [List.mem_append, List.mem_singleton, or_and_right, exists_or, exists_eq_left]
    exact or_comm

/-! ### The search -/

theorem mem_successors {d : DefId} : d ∈ graph.successors it id ↔ d ∈ graph.dependentsOf id := by
  rw [DepGraph.successors, DepGraph.dependentsOf]
  cases graph.reverse.lookup id with
  | none => simp
  | some deps => exact it.mem_order

theorem dependentsOf_subset_nodes : graph.dependentsOf id ⊆ graph.nodes := by
  intro d hd
  refine Finset.mem_biUnion.mpr ⟨id, ?_, hd⟩
  rw [List.mem_toFinset, ← AList.mem_keys, ← AList.lookup_isSome]
  rw [DepGraph.dependentsOf] at hd
  cases h : graph.reverse.lookup id with
  | none => simp [h] at hd
  | some deps => rfl

/-- A redefinition affects what the reverse edges lead to, whatever cycles they form. -/
theorem mem_transitiveDependents {d : DefId} : d ∈ graph.transitiveDependents it id ↔
    Relation.TransGen (fun a b => b ∈ graph.dependentsOf a) id d := by
  have hnodes : ∀ a, ∀ b ∈ graph.successors it a, b ∈ graph.nodes := fun a b hb =>
    dependentsOf_subset_nodes (mem_successors.mp hb)
  rw [DepGraph.transitiveDependents, Worklist.mem_closure hnodes]
  simp only [mem_successors]

/-! ### Exactness -/

theorem Exact.tracked (h : Exact it file resolved) : Tracked file resolved where
  collected owner decl hdecl use huse _ id hid htarget := by
    obtain ⟨hmem, howner⟩ := lastOwned_mem hdecl
    have hedge := (h.forward decl hmem owner howner id hid).mpr ⟨use, huse, htarget⟩
    obtain ⟨last, hlast, -, hfinds⟩ := mem_dependenciesOf.mp hedge
    obtain rfl := Option.mem_unique hdecl hlast
    exact hfinds
  shared decl hmem other hother owner howner hsame id hid hrefers :=
    (h.forward other hother owner hsame id hid).mp
      ((h.forward decl hmem owner howner id hid).mpr hrefers)

/-- Where the references are tracked, the walk collects those of the last declaration. -/
theorem Tracked.finds (h : Tracked file resolved) (hdecl : decl ∈ lastOwned resolved file.decls owner)
    (hid : id ≠ owner) (hrefers : Refers resolved decl id) : Finds resolved (uses decl) id := by
  obtain ⟨use, huse, htarget⟩ := hrefers
  cases hvisited : use.position.visited with
  | true => exact ⟨use, huse, hvisited, htarget⟩
  | false => exact h.collected owner decl hdecl use huse hvisited id hid htarget

theorem Tracked.mem_dependenciesOf_iff (h : Tracked file resolved) (hmem : decl ∈ file.decls)
    (howner : declDefId resolved decl = some owner) (hid : id ≠ owner) :
    id ∈ (buildDepGraph it file resolved).dependenciesOf owner ↔ Refers resolved decl id := by
  rw [mem_dependenciesOf]
  constructor
  · rintro ⟨last, hlast, -, hfinds⟩
    obtain ⟨hlastMem, hlastOwner⟩ := lastOwned_mem hlast
    exact h.shared last hlastMem decl hmem owner hlastOwner howner id hid hfinds.refers
  · intro hrefers
    obtain ⟨last, hlast⟩ := exists_lastOwned hmem howner
    obtain ⟨hlastMem, hlastOwner⟩ := lastOwned_mem hlast
    exact ⟨last, hlast, hid, h.finds hlast hid
      (h.shared decl hmem last hlastMem owner howner hlastOwner id hid hrefers)⟩

theorem Tracked.mem_dependentsOf_iff (h : Tracked file resolved) :
    owner ∈ (buildDepGraph it file resolved).dependentsOf id ↔
      id ∈ (buildDepGraph it file resolved).dependenciesOf owner := by
  rw [mem_dependentsOf]
  constructor
  · rintro ⟨decl, hmem, howner, hid, hfinds⟩
    exact (h.mem_dependenciesOf_iff hmem howner hid).mpr hfinds.refers
  · intro hedge
    obtain ⟨last, hlast, hid, hfinds⟩ := mem_dependenciesOf.mp hedge
    obtain ⟨hmem, howner⟩ := lastOwned_mem hlast
    exact ⟨last, hmem, howner, hid, hfinds⟩

/-- A word of the text at the given place. -/
def word (name : String) (start : ℕ) : Ident := ⟨name, ⟨start, start + name.length⟩⟩

/-- A type, a tool that loads a value of it, and an agent that names the type for the value that it
has loaded, and nowhere else. -/
def annotated : File where
  decls := [
    .type ⟨word "Order" 5, [⟨word "id" 16, .named (word "String" 20), ⟨16, 26⟩⟩], ⟨0, 26⟩⟩,
    .tool
      { name := word "load" 33
        params := [⟨word "id" 38, .named (word "String" 42)⟩]
        returnTy := .named (word "Order" 53)
        effectRow := ⟨[]⟩
        span := ⟨28, 58⟩ },
    .agent
      { name := word "ask" 66
        params := [⟨word "id" 70, .named (word "String" 74)⟩]
        returnTy := .named (word "String" 85)
        body := [
          .letStmt (word "o" 97) (some (.named (word "Order" 100)))
            (.call (.ident (word "load" 108)) [.ident (word "id" 113)]),
          .returnStmt (some (.fieldAccess (.ident (word "o" 128)) (word "id" 130)))]
        effectRow := ⟨[]⟩
        span := ⟨60, 132⟩ }]

end Corvid.Resolve
