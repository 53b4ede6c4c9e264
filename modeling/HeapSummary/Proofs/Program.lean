import HeapSummary.IdSet.Lemmas
import HeapSummary.Proofs.CallGraph
import HeapSummary.Store

/-!
# Programs that operations build, and their own candidates

`Program.Built p` says that `p` came about by adding types, fields and procedures and by building its call graph. Such a
program has at most one procedure for a node, and it is the one filed there. The store of a program's own accesses holds
field candidates only, and every local of a node is one of them.
-/

namespace HeapSummary

namespace Program

/-- The programs that the operations give. The call graph is built by operations of its own. -/
inductive Built : Program → Prop
  | empty : Built empty
  | addType {p : Program} (h : Built p) (name : String) : Built (p.addType name).1
  | addField {p : Program} (h : Built p) (name : String) : Built (p.addField name).1
  | addProcedure {p : Program} (h : Built p) (q : Procedure) : Built (p.addProcedure q)
  | setCallGraph {p : Program} (h : Built p) {g : CallGraph} (hg : g.Built) : Built { p with callGraph := g }

theorem Built.callGraph_built {p : Program} (h : p.Built) : p.callGraph.Built := by
  induction h with
  | empty => exact .empty
  | addType _ name ih =>
    unfold Program.addType
    split <;> exact ih
  | addField _ name ih => exact ih
  | addProcedure _ q ih => exact ih
  | setCallGraph _ hg _ => exact hg

theorem Built.procedure_node {p : Program} (h : p.Built) {x : CallNode} {q : Procedure}
    (hq : p.procedure? x = some q) : q.node = x := by
  induction h with
  | empty => simp [procedure?, Program.empty, default] at hq
  | addType _ name ih =>
    unfold Program.addType at hq
    split at hq <;> exact ih hq
  | addField _ name ih => exact ih hq
  | addProcedure _ r ih =>
    unfold procedure? Program.addProcedure at hq
    rw [IdMap.get_set] at hq
    split at hq
    · rename_i hx
      cases hq
      exact hx.symm
    · exact ih hq
  | setCallGraph _ hg ih => exact ih hq

theorem Built.node_mem_ids {p : Program} (h : p.Built) {q : Procedure} (hq : q ∈ p.procedures) :
    q.node ∈ p.callGraph.ids := by
  obtain ⟨x, hx, hfiled⟩ := List.mem_filterMap.1 hq
  rwa [h.procedure_node hfiled]

theorem Built.nodup_nodes {p : Program} (h : p.Built) : (p.procedures.map Procedure.node).Nodup := by
  have hsub : ∀ xs : List CallNode, ((xs.filterMap p.procedure?).map Procedure.node).Sublist xs := by
    intro xs
    induction xs with
    | nil => exact .slnil
    | cons x xs ih =>
      cases hx : p.procedure? x with
      | none =>
        rw [List.filterMap_cons_none hx]
        exact ih.cons x
      | some q =>
        rw [List.filterMap_cons_some hx, List.map_cons, h.procedure_node hx]
        exact ih.cons_cons x
  exact (Arena.nodup_ids p.callGraph.nodes).sublist (hsub _)

end Program

namespace Store

variable {s : Store} {a : Access} {c d : Candidate} {x y : CallNode}

theorem field?_eq_some {l : FieldLocation} : s.field? c = some l ↔ s.arena.get? c = some (.field l) := by
  unfold field?
  cases s.arena.get? c with
  | none => simp
  | some loc => cases loc <;> simp [Location.field?]

theorem field_eq_ok {l : FieldLocation} : s.field c = .ok l ↔ s.field? c = some l := by
  rw [field?_eq_some]
  unfold field location
  simp only [Outcome.bind_eq_ok, Arena.read_eq_ok_iff]
  constructor
  · rintro ⟨loc, hloc, h⟩
    cases loc with
    | root r => simp at h
    | field f =>
      rw [Outcome.pure_eq_ok] at h
      exact h ▸ hloc
  · intro h
    exact ⟨_, h, rfl⟩

theorem requireFields_eq_ok {cs : IdSet .candidate} (h : ∀ c ∈ cs, ∃ l, s.field? c = some l) :
    s.requireFields cs = .ok () := by
  refine Outcome.forM_eq_ok fun c hc => ?_
  obtain ⟨l, hl⟩ := h c (IdSet.mem_toList.1 hc)
  rw [field_eq_ok.2 hl]
  rfl

/-! ### Accesses

An access gets a field candidate, and field candidates stay what they are. -/

theorem field?_findAccess? (h : s.findAccess? a = some c) : ∃ l, s.field? c = some l := by
  obtain ⟨⟨c', loc⟩, hfind, rfl⟩ := Option.map_eq_some_iff.1 h
  have hget : s.arena.get? c' = some loc := Arena.mem_entries.1 (List.mem_of_find?_eq_some hfind)
  have hfor := List.find?_some hfind
  cases loc with
  | root r => simp [isFor] at hfor
  | field l => exact ⟨l, field?_eq_some.2 hget⟩

theorem locals_addAccess (s : Store) (a : Access) : (s.addAccess a).1.locals = s.locals := by
  unfold addAccess
  split <;> rfl

theorem exists_field?_addAccess (h : d = (s.addAccess a).2 ∨ ∃ l, s.field? d = some l) :
    ∃ l, (s.addAccess a).1.field? d = some l := by
  simp only [field?_eq_some]
  unfold addAccess at h ⊢
  split at h
  · rename_i c hfind
    have hd : ∃ l, s.field? d = some l := h.elim (fun hd => hd ▸ field?_findAccess? hfind) id
    obtain ⟨l, hl⟩ := hd
    rw [field?_eq_some] at hl
    simp only [Arena.get?_modify, hl]
    split
    · exact ⟨_, rfl⟩
    · exact ⟨l, rfl⟩
  · simp only [Arena.get?_push]
    split
    · exact ⟨_, rfl⟩
    · rename_i hne
      obtain ⟨l, hl⟩ := h.resolve_left hne
      exact ⟨l, field?_eq_some.1 hl⟩

/-- Every local is a field candidate. -/
def LocalsAreFields (s : Store) : Prop := ∀ x, ∀ c ∈ s.localsOf x, ∃ l, s.field? c = some l

theorem mem_localsOf_addLocal :
    c ∈ (s.addLocal x a).localsOf y ↔ (y = x ∧ c = (s.addAccess a).2) ∨ c ∈ s.localsOf y := by
  show c ∈ ((s.addAccess a).1.locals.set x (((s.addAccess a).1.localsOf x).insert (s.addAccess a).2)).get y ↔ _
  rw [localsOf, locals_addAccess, IdMap.get_set]
  split
  · rename_i hyx
    rw [IdSet.mem_insert, hyx, localsOf]
    simp
  · rename_i hyx
    simp [hyx, localsOf]

theorem localsAreFields_addLocal (h : s.LocalsAreFields) (x : CallNode) (a : Access) :
    (s.addLocal x a).LocalsAreFields := by
  intro y c hc
  show ∃ l, (s.addAccess a).1.field? c = some l
  exact exists_field?_addAccess ((mem_localsOf_addLocal.1 hc).imp And.right (h y c))

theorem localsAreFields_ofProgram (p : Program) : (ofProgram p).LocalsAreFields := by
  refine List.foldlRecOn _ _ (fun x c hc => absurd hc IdSet.not_mem_empty) fun s hs node _ => ?_
  exact List.foldlRecOn _ _ hs fun s hs a _ => localsAreFields_addLocal hs node.1 a

theorem mem_ids_of_mem_localsOf {p : Program} (hc : c ∈ (ofProgram p).localsOf x) : x ∈ p.callGraph.ids := by
  let InGraph (s : Store) : Prop := ∀ x, ∀ c ∈ s.localsOf x, x ∈ p.callGraph.ids
  suffices h : InGraph (ofProgram p) from h x c hc
  refine List.foldlRecOn (motive := InGraph) _ _ (fun x c hc => absurd hc IdSet.not_mem_empty) fun s hs node hnode => ?_
  refine List.foldlRecOn (motive := InGraph) _ _ hs fun s hs a _ x c hc => ?_
  rcases mem_localsOf_addLocal.1 hc with ⟨rfl, _⟩ | hc
  · exact Arena.mem_ids.2 (Arena.lt_size_of_get? (Arena.mem_entries.1 hnode))
  · exact hs x c hc

end Store

end HeapSummary
