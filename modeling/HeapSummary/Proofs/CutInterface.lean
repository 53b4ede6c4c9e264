import HeapSummary.Proofs.Absorption
import HeapSummary.Proofs.Faultless

/-!
# Cutting against propagation

Gated propagation and cutting decide in two ways what the roots of a procedure reach. Propagation collects objects, from
the roots and then from all that was reached, over the calls. Cutting searches the candidate graph of an interface that
was seeded before, and does not go on from definitely primitive candidates.

`RootReaches` says what both are about: dereferences lead from the roots to a candidate within a set of candidates.
Cutting leaves what the roots reach within the seeded interface. A closed family contains that, so cutting leaves no
more than gated propagation found. If nothing that is left is primitive, what the roots reach is closed itself, and then
the two agree. The roots reach more within a larger set, so seeding with plain propagation leaves no less than seeding
with gated propagation.
-/

namespace HeapSummary

/-- Seeds all interfaces, cuts what is unreachable from one procedure's, and gives what is left of it. -/
def Propagation.cutInterface (out : Propagation) (g : CallGraph) (s : Store) (q : Procedure) :
    Polled (IdSet .candidate) := do
  let seeded ← out.seed g s
  let first ← Polled.attempt (Bounding.start seeded q)
  let cut ← Polled.attempt first.cutUnreachable
  return cut.interface

/-! ### Reaching from the roots -/

/-- Dereferences lead from the roots of the procedure to the candidate, all within the set. None goes on from a
definitely primitive candidate. -/
inductive RootReaches (s : Store) (q : Procedure) (cs : Set Candidate) : Candidate → Prop
  | root {c : Candidate} {o : InstanceKey} (hc : c ∈ cs) (hbase : o ∈ s.basesOf c) (ho : o ∈ q.rootPts) :
    RootReaches s q cs c
  | step {c d : Candidate} {o : InstanceKey} (h : RootReaches s q cs c) (hprim : s.isPrimitive c = false) (hd : d ∈ cs)
    (hbase : o ∈ s.basesOf d) (ho : o ∈ s.ptsOf c) : RootReaches s q cs d

namespace RootReaches

variable {s t : Store} {q : Procedure} {cs ds : Set Candidate} {c : Candidate}

theorem mem (h : RootReaches s q cs c) : c ∈ cs := by
  cases h with
  | root hc _ _ => exact hc
  | step _ _ hd _ _ => exact hd

theorem mono (hsub : ∀ c ∈ cs, c ∈ ds) (h : RootReaches s q cs c) : RootReaches s q ds c := by
  induction h with
  | root hc hbase ho => exact .root (hsub _ hc) hbase ho
  | step _ hprim hd hbase ho ih => exact .step ih hprim (hsub _ hd) hbase ho

theorem of_agree
    (hagree : ∀ c ∈ cs, s.basesOf c = t.basesOf c ∧ s.ptsOf c = t.ptsOf c ∧ s.isPrimitive c = t.isPrimitive c)
    (h : RootReaches s q cs c) : RootReaches t q cs c := by
  induction h with
  | root hc hbase ho => exact .root hc ((hagree _ hc).1 ▸ hbase) ho
  | step h hprim hd hbase ho ih =>
    obtain ⟨_, hpts, hprimitive⟩ := hagree _ h.mem
    exact .step ih (hprimitive ▸ hprim) hd ((hagree _ hd).1 ▸ hbase) (hpts ▸ ho)

theorem keeps_iff (hkeeps : s.Keeps t) (hfields : ∀ c ∈ cs, ∃ f, s.field? c = some f) :
    RootReaches t q cs c ↔ RootReaches s q cs c := by
  have hagree : ∀ c ∈ cs, t.basesOf c = s.basesOf c ∧ t.ptsOf c = s.ptsOf c ∧ t.isPrimitive c = s.isPrimitive c := by
    intro c hc
    obtain ⟨f, hf⟩ := hfields c hc
    have hf' := hkeeps.field? hf
    have hget := Store.field?_eq_some.1 hf
    refine ⟨?_, ?_, ?_⟩
    · rw [Store.basesOf_of_field hf, Store.basesOf_of_field hf']
    · rw [Store.ptsOf, Store.ptsOf, hf, hf']
    · rw [Store.isPrimitive_of_get hget, Store.isPrimitive_of_get (hkeeps c _ hget)]
  refine ⟨of_agree hagree, of_agree fun c hc => ?_⟩
  obtain ⟨hbases, hpts, hprimitive⟩ := hagree c hc
  exact ⟨hbases.symm, hpts.symm, hprimitive.symm⟩

end RootReaches

/-! ### What cutting leaves -/

namespace Bounding

variable {b b' : Bounding} {c : Candidate} {o : InstanceKey}

theorem Exact.mem_rootPts (hb : b.Exact) : o ∈ b.procedure.rootPts ↔ ∃ r ∈ b.graph.roots, o ∈ b.store.objectsOf r := by
  rw [Procedure.rootPts, IdSet.mem_unionMap]
  constructor
  · rintro ⟨r, hr, ho⟩
    have hmem : some (.root r) ∈ b.graph.roots.map b.store.arena.get? := hb.roots ▸ List.mem_map_of_mem hr
    obtain ⟨c, hc, hget⟩ := List.mem_map.1 hmem
    refine ⟨c, hc, ?_⟩
    rw [Store.objectsOf_of_get hget]
    exact ho
  · rintro ⟨c, hc, ho⟩
    have hmem : b.store.arena.get? c ∈ b.procedure.roots.map fun r => some (.root r) :=
      hb.roots ▸ List.mem_map_of_mem hc
    obtain ⟨r, hr, hget⟩ := List.mem_map.1 hmem
    rw [Store.objectsOf_of_get hget.symm] at ho
    exact ⟨r, hr, ho⟩

theorem Exact.found_iff_rootReaches (hb : b.Exact) :
    c ∈ b.interface ∧ b.graph.Found b.store b.graph.roots c ↔
      RootReaches b.store b.procedure {c | c ∈ b.interface} c := by
  constructor
  · rintro ⟨hc, hfound⟩
    induction hfound with
    | start hroot => exact absurd hroot (hb.not_mem_roots_of_interface hc)
    | @step c d _ hexp hd ih =>
      obtain ⟨hnode, _, hleads⟩ := (hb.edges c d).1 hd
      obtain ⟨o, hbase, ho⟩ := Store.leads_iff.1 hleads
      rcases (hb.nodes c).1 hnode with hroot | hmem
      · exact .root hc hbase (hb.mem_rootPts.2 ⟨c, hroot, ho⟩)
      · have hprim := hexp.resolve_left (hb.not_mem_roots_of_interface hmem)
        obtain ⟨f, hf⟩ := hb.fields c hmem
        exact .step (ih hmem) hprim hc hbase (Store.ptsOf_of_field hf ▸ ho)
  · intro h
    refine ⟨h.mem, ?_⟩
    induction h with
    | @root c o hc hbase ho =>
      obtain ⟨r, hr, ho⟩ := hb.mem_rootPts.1 ho
      have hedge : c ∈ b.graph.succsOf r :=
        (hb.edges r c).2 ⟨(hb.nodes r).2 (.inl hr), (hb.nodes c).2 (.inr hc), Store.leads_iff.2 ⟨o, hbase, ho⟩⟩
      exact .step (.start hr) (.inl hr) hedge
    | @step c d o h hprim hd hbase ho ih =>
      obtain ⟨f, hf⟩ := hb.fields c h.mem
      rw [Store.ptsOf_of_field hf] at ho
      have hedge : d ∈ b.graph.succsOf c :=
        (hb.edges c d).2 ⟨(hb.nodes c).2 (.inr h.mem), (hb.nodes d).2 (.inr hd), Store.leads_iff.2 ⟨o, hbase, ho⟩⟩
      exact .step ih (.inr hprim) hedge

end Bounding

namespace Propagation

variable {p : Program} {g : CallGraph} {s : Store} {plain out : Propagation} {q : Procedure} {x : CallNode}
  {c : Candidate}

/-- What an interface starts from: the locals of its node and what propagation brought there. -/
def seeded (s : Store) (out : Propagation) (x : CallNode) : Set Candidate := {c | c ∈ s.localsOf x ∨ c ∈ out.get x}

/-- Cutting a seeded interface succeeds, and it leaves what the roots reach within it. -/
theorem exists_returns_cutInterface
    (hout : ∀ x, ∀ c ∈ out.get x, x ∈ g.ids ∧ ∃ f, (Store.ofProgram p).field? c = some f) (q : Procedure) :
    ∃ left, Polled.Returns (out.cutInterface g (Store.ofProgram p) q) left ∧
      ∀ c, c ∈ left ↔ RootReaches (Store.ofProgram p) q (seeded (Store.ofProgram p) out q.node) c := by
  obtain ⟨t, hseed, ht⟩ := exists_returns_seed (g := g) (Store.sound_ofProgram p) fun x c hc => (hout x c hc).2
  obtain ⟨first, hfirst, hsound⟩ := Bounding.sound_start ht.traces q (ht.fields q.node)
  obtain ⟨cut, hcut, _⟩ := (Bounding.guards_sound (Store.unmerged_ofProgram p)).cutUnreachable hsound
  have hmem : {c | c ∈ first.interface} = seeded (Store.ofProgram p) out q.node := by
    obtain ⟨_, hrun, _⟩ := (hseed .never).resolve_right fun h => h.1 Monitor.neverCancels_never
    ext c
    show c ∈ first.store.interface first.procedure.node ↔ _
    rw [Bounding.procedure_start hfirst, Bounding.interface_start hfirst, (added_seed hrun).interface,
      Store.showsLocals_ofProgram]
    exact or_congr_right ⟨And.right, fun hc => ⟨(hout q.node c hc).1, hc⟩⟩
  have hfields : ∀ c ∈ seeded (Store.ofProgram p) out q.node, ∃ f, (Store.ofProgram p).field? c = some f := by
    rintro c (hc | hc)
    · exact Store.localsAreFields_ofProgram p q.node c hc
    · exact (hout q.node c hc).2
  refine ⟨cut.interface, ?_, fun c => ?_⟩
  · exact hseed.bind ((Polled.returns_attempt hfirst).bind ((Polled.returns_attempt hcut).bind (Polled.returns_pure _)))
  · rw [Bounding.mem_interface_cutUnreachable hcut, hsound.exact.found_iff_rootReaches, hmem,
      Bounding.procedure_start hfirst, RootReaches.keeps_iff hsound.traces.keeps hfields]

/-! ### Closed families -/

theorem Closed.mem_of_rootReaches {family : CallNode → Set Candidate} (h : Closed p g s plain family)
    (hlocals : ∀ c ∈ s.localsOf x, x ∈ g.ids) (hq : p.procedure? x = some q)
    (hc : RootReaches s q {c | c ∈ s.localsOf x ∨ c ∈ family x} c) : c ∈ family x := by
  induction hc with
  | root hc hbase ho =>
    rcases hc with hlocal | hc
    · exact h x (hlocals _ hlocal) q hq _ (.inl hlocal) ⟨_, hbase, .inl ho⟩
    · exact hc
  | @step c d o _ _ hd hbase ho ih =>
    rcases hd with hlocal | hd
    · exact h x (hlocals _ hlocal) q hq _ (.inl hlocal) ⟨_, hbase, .inr ⟨c, ih, ho⟩⟩
    · exact hd

/-- The roots reach all of the least closed family at a node, unless they are held up at a primitive candidate. -/
theorem IsLeastClosed.rootReaches {family : CallNode → Set Candidate} {cs : Set Candidate}
    (h : IsLeastClosed p g s plain family) (hx : x ∈ g.ids) (hq : p.procedure? x = some q)
    (hcs : ∀ c ∈ family x, c ∈ cs) (hprim : ∀ c, RootReaches s q cs c → s.isPrimitive c = false) (hc : c ∈ family x) :
    RootReaches s q cs c := by
  -- what is not reached at `x` is taken out of the family there, and the rest is still closed
  have hclosed : Closed p g s plain fun y => {c | c ∈ family y ∧ (y = x → RootReaches s q cs c)} := by
    intro y hy r hr c hdraws htouches
    have hmem : c ∈ family y :=
      h.closed y hy r hr c (hdraws.mono fun _ _ hd => hd.1) (htouches.mono fun _ hd => hd.1)
    refine ⟨hmem, ?_⟩
    rintro rfl
    obtain rfl : q = r := Option.some.inj (hq.symm.trans hr)
    obtain ⟨o, hbase, ho | ⟨d, hd, ho⟩⟩ := htouches
    · exact .root (hcs c hmem) hbase ho
    · have hreached := hd.2 rfl
      exact .step hreached (hprim d hreached) (hcs c hmem) hbase ho
  exact (h.least _ hclosed x hx (by simp [hq]) c hc).2 rfl

/-! ### Both propagations of a program -/

theorem exists_graphs (hp : p.Built) : ∃ stripped, p.callGraph.withoutDispatch = .ok stripped ∧
    ∀ g, g = p.callGraph ∨ g = stripped → g.Mirrored ∧ g.ids = p.callGraph.ids := by
  obtain ⟨stripped, hstripped⟩ := hp.callGraph_built.mirrored.exists_withoutDispatch
  refine ⟨stripped, hstripped, ?_⟩
  rintro g (rfl | rfl)
  · exact ⟨hp.callGraph_built.mirrored, rfl⟩
  · exact ⟨(hp.callGraph_built.withoutDispatch hstripped).mirrored, CallGraph.ids_withoutDispatch hstripped⟩

theorem mem_ids_and_field (hplain : ∀ x c, c ∈ plain.get x ↔
      x ∈ g.ids ∧ ∃ y, g.Reaches x y ∧ c ∈ (Store.ofProgram p).localsOf y) (hc : c ∈ plain.get x) :
    x ∈ g.ids ∧ ∃ f, (Store.ofProgram p).field? c = some f :=
  ⟨((hplain x c).1 hc).1, field?_of_mem_plain (Store.localsAreFields_ofProgram p) hplain hc⟩

/-- Cutting agrees with gated propagation, over the call graph with its dispatching nodes or without them. Of an
interface that was seeded with gated propagation it leaves candidates of the propagated set only, and all of them if
none that is left is definitely primitive. -/
theorem cut_agrees_with_gated (hp : p.Built) : ∃ stripped, p.callGraph.withoutDispatch = .ok stripped ∧
    ∀ g, g = p.callGraph ∨ g = stripped →
      ∃ out, Polled.Returns (gated p g (Store.ofProgram p)) out ∧
        ∀ x q, p.procedure? x = some q →
          ∃ left, Polled.Returns (out.cutInterface g (Store.ofProgram p) q) left ∧
            (∀ c ∈ left, c ∈ out.get x) ∧
            ((∀ c ∈ left, (Store.ofProgram p).isPrimitive c = false) → left = out.get x) := by
  obtain ⟨stripped, hstripped, hgraphs⟩ := exists_graphs hp
  refine ⟨stripped, hstripped, fun g hg => ?_⟩
  obtain ⟨hmirrored, hids⟩ := hgraphs g hg
  obtain ⟨plain, out, _, hgated, hplain, hsub, hleast⟩ := exists_returns_gated hp hmirrored hids
  have hout : ∀ x, ∀ c ∈ out.get x, x ∈ g.ids ∧ ∃ f, (Store.ofProgram p).field? c = some f := fun x c hc =>
    mem_ids_and_field hplain (hsub x c hc)
  refine ⟨out, hgated, fun x q hq => ?_⟩
  obtain ⟨left, hrun, hleft⟩ := exists_returns_cutInterface hout q
  rw [hp.procedure_node hq] at hleft
  have hwithin : ∀ c ∈ left, c ∈ out.get x := fun c hc =>
    hleast.closed.mem_of_rootReaches (fun c hc => hids ▸ Store.mem_ids_of_mem_localsOf hc) hq ((hleft c).1 hc)
  refine ⟨left, hrun, hwithin, fun hprim => IdSet.ext fun c => ⟨hwithin c, fun hc => (hleft c).2 ?_⟩⟩
  exact hleast.rootReaches (hout x c hc).1 hq (fun _ => .inr) (fun d hd => hprim d ((hleft d).2 hd)) hc

/-- `main` calls `callee`. Each of the two accesses an object of its roots and one that its roots do not lead to; for
`callee` the latter is the object that `main` reads from its own. -/
def crossedAccesses : CallGraph where
  nodes := ⟨#[⟨"main", .normal, [⟨⟨0⟩, IdSet.singleton ⟨1⟩, IdSet.singleton ⟨2⟩, none, .no⟩,
      ⟨⟨1⟩, IdSet.singleton ⟨8⟩, ∅, none, .no⟩], [⟨1⟩], []⟩,
    ⟨"callee", .normal, [⟨⟨1⟩, IdSet.singleton ⟨2⟩, ∅, none, .no⟩,
      ⟨⟨1⟩, IdSet.singleton ⟨9⟩, ∅, none, .no⟩], [], [⟨0⟩]⟩]⟩
  members := IdSet.ofList [⟨0⟩, ⟨1⟩]

theorem built_crossedAccesses : crossedAccesses.Built := by
  have nodes := (CallGraph.Built.empty.addNode "main" .normal).addNode "callee" .normal
  have calls := nodes.addEdge (x := ⟨0⟩) (y := ⟨1⟩) rfl
  have held := calls.addAccess (x := ⟨0⟩) (a := ⟨⟨0⟩, IdSet.singleton ⟨1⟩, IdSet.singleton ⟨2⟩, none, .no⟩) rfl
  have stray := held.addAccess (x := ⟨0⟩) (a := ⟨⟨1⟩, IdSet.singleton ⟨8⟩, ∅, none, .no⟩) rfl
  have crossed := stray.addAccess (x := ⟨1⟩) (a := ⟨⟨1⟩, IdSet.singleton ⟨2⟩, ∅, none, .no⟩) rfl
  exact crossed.addAccess (x := ⟨1⟩) (a := ⟨⟨1⟩, IdSet.singleton ⟨9⟩, ∅, none, .no⟩) rfl

def crossedMain : Procedure := ⟨⟨0⟩, "main", none, false, [.formal "p" none (IdSet.singleton ⟨1⟩)]⟩

def crossedProgram : Program :=
  { (Program.empty.addProcedure crossedMain).addProcedure
      ⟨⟨1⟩, "callee", none, false, [.formal "q" none (IdSet.singleton ⟨9⟩)]⟩ with callGraph := crossedAccesses }

theorem built_crossedProgram : crossedProgram.Built :=
  ((Program.Built.empty.addProcedure _).addProcedure _).setCallGraph built_crossedAccesses

theorem run_gated_crossedProgram : ∃ out mon left mon',
    gated crossedProgram crossedAccesses (Store.ofProgram crossedProgram) .never = .ok out mon ∧
      out.cutInterface crossedAccesses (Store.ofProgram crossedProgram) crossedMain .never = .ok left mon' ∧
      left.toList = [⟨0⟩] := by
  have hrun : ∃ out mon, gated crossedProgram crossedAccesses (Store.ofProgram crossedProgram) .never = .ok out mon ∧
      ∃ left mon', out.cutInterface crossedAccesses (Store.ofProgram crossedProgram) crossedMain .never = .ok left mon' ∧
        left.toList = [⟨0⟩] := by
    decide +kernel
  obtain ⟨out, mon, hgated, left, mon', hcut, hleft⟩ := hrun
  exact ⟨out, mon, left, mon', hgated, hcut, hleft⟩

/-- The local access that the roots of `main` do not lead to is cut. -/
theorem cut_crossedProgram : crossedProgram.Built ∧
    (Store.ofProgram crossedProgram).localsOf ⟨0⟩ = IdSet.ofList [⟨0⟩, ⟨1⟩] ∧
    ∃ out left, Polled.Returns (gated crossedProgram crossedAccesses (Store.ofProgram crossedProgram)) out ∧
      Polled.Returns (out.cutInterface crossedAccesses (Store.ofProgram crossedProgram) crossedMain) left ∧
      left.toList = [⟨0⟩] ∧ left = out.get ⟨0⟩ := by
  obtain ⟨_, _, hall⟩ := cut_agrees_with_gated built_crossedProgram
  obtain ⟨out, hgated, hcut⟩ := hall crossedAccesses (.inl rfl)
  obtain ⟨left, hleft, _, hagrees⟩ := hcut ⟨0⟩ crossedMain rfl
  obtain ⟨out', _, left', _, hrun, hrun', htoList⟩ := run_gated_crossedProgram
  obtain rfl := hgated.eq_of_ok hrun
  obtain rfl := hleft.eq_of_ok hrun'
  refine ⟨built_crossedProgram, by decide, out', left', hgated, hleft, htoList, hagrees fun c hc => ?_⟩
  rw [← IdSet.mem_toList, htoList, List.mem_singleton] at hc
  subst hc
  decide

/-- Gated propagation only sharpens. It brings to a node no more than plain propagation does, and after cutting it
leaves no more of an interface. -/
theorem gated_sharpens_plain (hp : p.Built) : ∃ stripped, p.callGraph.withoutDispatch = .ok stripped ∧
    ∀ g, g = p.callGraph ∨ g = stripped →
      ∃ plain out, Polled.Returns (Propagation.plain g (Store.ofProgram p)) plain ∧
        Polled.Returns (gated p g (Store.ofProgram p)) out ∧
        (∀ x, ∀ c ∈ out.get x, c ∈ plain.get x) ∧
        ∀ q, ∃ sharp coarse, Polled.Returns (out.cutInterface g (Store.ofProgram p) q) sharp ∧
          Polled.Returns (plain.cutInterface g (Store.ofProgram p) q) coarse ∧ ∀ c ∈ sharp, c ∈ coarse := by
  obtain ⟨stripped, hstripped, hgraphs⟩ := exists_graphs hp
  refine ⟨stripped, hstripped, fun g hg => ?_⟩
  obtain ⟨hmirrored, hids⟩ := hgraphs g hg
  obtain ⟨plain, out, hrun, hgated, hplain, hsub, _⟩ := exists_returns_gated hp hmirrored hids
  refine ⟨plain, out, hrun, hgated, hsub, fun q => ?_⟩
  obtain ⟨sharp, hsharp, hmem⟩ := exists_returns_cutInterface (fun x c hc => mem_ids_and_field hplain (hsub x c hc)) q
  obtain ⟨coarse, hcoarse, hmem'⟩ := exists_returns_cutInterface (fun x c hc => mem_ids_and_field hplain hc) q
  refine ⟨sharp, coarse, hsharp, hcoarse, fun c hc => (hmem' c).2 ?_⟩
  exact ((hmem c).1 hc).mono fun d hd => hd.imp_right (hsub q.node d)

/-- With plain propagation the access of `callee` to the object that `main` reads stays in the interface of `main`. -/
theorem sharper_in_crossedProgram : crossedProgram.Built ∧ ∃ plain out sharp coarse,
    Polled.Returns (Propagation.plain crossedAccesses (Store.ofProgram crossedProgram)) plain ∧
      Polled.Returns (gated crossedProgram crossedAccesses (Store.ofProgram crossedProgram)) out ∧
      Polled.Returns (out.cutInterface crossedAccesses (Store.ofProgram crossedProgram) crossedMain) sharp ∧
      Polled.Returns (plain.cutInterface crossedAccesses (Store.ofProgram crossedProgram) crossedMain) coarse ∧
      sharp.toList = [⟨0⟩] ∧ coarse.toList = [⟨0⟩, ⟨2⟩] ∧ ∀ c ∈ sharp, c ∈ coarse := by
  obtain ⟨_, _, hall⟩ := gated_sharpens_plain built_crossedProgram
  obtain ⟨plain, out, hplain, hgated, _, hcut⟩ := hall crossedAccesses (.inl rfl)
  obtain ⟨sharp, coarse, hsharp, hcoarse, hsub⟩ := hcut crossedMain
  obtain ⟨out', _, sharp', _, hrun, hrun', htoList⟩ := run_gated_crossedProgram
  obtain rfl := hgated.eq_of_ok hrun
  obtain rfl := hsharp.eq_of_ok hrun'
  obtain ⟨plain', mon, hrun, coarse', mon', hrun', htoList'⟩ : ∃ plain' mon,
      Propagation.plain crossedAccesses (Store.ofProgram crossedProgram) .never = .ok plain' mon ∧ ∃ coarse' mon',
        plain'.cutInterface crossedAccesses (Store.ofProgram crossedProgram) crossedMain .never = .ok coarse' mon' ∧
        coarse'.toList = [⟨0⟩, ⟨2⟩] := by
    decide +kernel
  obtain rfl := hplain.eq_of_ok hrun
  obtain rfl := hcoarse.eq_of_ok hrun'
  exact ⟨built_crossedProgram, plain', out', sharp', coarse', hplain, hgated, hsharp, hcoarse, htoList, htoList', hsub⟩

end Propagation

end HeapSummary
