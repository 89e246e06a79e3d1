import ProgramAnalysis.Proofs.CallGraph.Closed
import ProgramAnalysis.Proofs.Lockstep
import ProgramAnalysis.Proofs.Program.Agreement

/-! Call graphs from declared types, of two programs that differ in bodies only. The targets of a call do
not depend on bodies, and the search looks at the bodies of the methods in its queue, all of which are
reachable. -/
namespace ProgramAnalysis.ClassHierarchy

open Traced

variable {p p' : Program} {R : Set MethodId} {s t : Search} {m entry : MethodId} {g : CallGraph}

theorem dispatchAll_withoutBodies (p : Program) (subsignature : String) (cs : List ClassId)
    (found : List MethodId) : dispatchAll p.withoutBodies subsignature cs found =
      dispatchAll p subsignature cs found := by
  induction cs generalizing found with
  | nil => rfl
  | cons c cs ih =>
    simp only [dispatchAll, p.dispatch_withoutBodies]
    refine congrArg (p.dispatch c subsignature >>= ·) (funext fun m? => ?_)
    cases m? with
    | none => exact ih found
    | some m => exact ih _

theorem targets_withoutBodies (p : Program) (call : Call) :
    targets p.withoutBodies call = targets p call := by
  simp only [targets, p.dispatch_withoutBodies, p.resolve_withoutBodies,
    p.subtypes_withoutBodies, dispatchAll_withoutBodies]

theorem targets_of_withoutBodies (h : p'.withoutBodies = p.withoutBodies) (call : Call) :
    targets p' call = targets p call := by
  rw [← targets_withoutBodies p', h, targets_withoutBodies p]

/-! ### The search -/

def Search.seen (s : Search) : Set MethodId := {m | m ∈ s.graph.reachable}

/-- Searches of both programs. -/
abbrev Keeps (R : Set MethodId) {α : Type} (s : Search) (st : α → Search) (y x : Traced α) : Prop :=
  Mirrors Search.seen R (fun s => ∀ m ∈ s.queue, m ∈ R) s st y x

theorem Search.keeps_link (s : Search) (kind : CallKind) (site : StmtRef) (callee : MethodId) :
    Keeps R s id (s.link kind site callee) (s.link kind site callee) := by
  unfold Search.link
  dsimp only
  split
  · refine mirrors_pure ?_ fun hs _ => hs
    show s.seen ⊆ _
    simp only [Search.seen, id, CallGraph.addEdge_reachable, subset_rfl]
  · refine mirrors_log_bind (mirrors_pure (fun m hm => ?_) fun hs hR m hm => ?_)
    · refine CallGraph.mem_addReachable.mpr (.inl ?_)
      rw [CallGraph.addEdge_reachable]
      exact hm
    · rcases List.mem_append.mp hm with hm | hm
      · exact hs m hm
      · exact hR (CallGraph.mem_addReachable.mpr (.inr (List.mem_singleton.mp hm)))

theorem Search.keeps_visit (h : p'.withoutBodies = p.withoutBodies)
    (hagrees : p.Agrees R p') (hm : m ∈ R) (s : Search) :
    Keeps R s id (Search.visit p' s m) (Search.visit p s m) := by
  unfold Search.visit
  refine mirrors_lift_bind (fun _ hb => (hagrees.getBody hm).trans hb) fun body _ => ?_
  cases body with
  | none => exact mirrors_pure subset_rfl fun hs _ => hs
  | some b =>
    refine mirrors_foldlM (fun t c _ => ?_) s
    obtain ⟨i, result, call⟩ := c
    unfold Search.visitCall
    dsimp only
    rw [targets_of_withoutBodies h]
    refine mirrors_lift_bind (fun _ hc => hc) fun found _ => ?_
    have hlinks : Keeps R t id (found.foldlM (fun s callee => s.link call.kind ⟨m, i⟩ callee) t)
        (found.foldlM (fun s callee => s.link call.kind ⟨m, i⟩ callee) t) :=
      mirrors_foldlM (fun u callee _ => u.keeps_link _ _ callee) t
    split
    · exact mirrors_log_bind hlinks
    · exact hlinks

theorem Search.seen_visit (h : (Search.visit p s m).result = .ok t) : s.seen ⊆ t.seen :=
  (Search.keeps_visit rfl (.refl Set.univ p) trivial s).grows t h

theorem Search.keeps_run (h : p'.withoutBodies = p.withoutBodies) (hagrees : p.Agrees R p')
    (fuel : Nat) (s : Search) :
    Keeps R s (⟨·, []⟩) (Search.run p' fuel s) (Search.run p fuel s) := by
  induction fuel generalizing s with
  | zero => exact mirrors_pure subset_rfl fun _ _ => nofun
  | succ fuel ih =>
    unfold Search.run
    split
    · exact mirrors_pure subset_rfl fun _ _ => nofun
    · next m queue hqueue =>
      have hvisit : Keeps R s id (Search.visit p' { s with queue } m)
          (Search.visit p { s with queue } m) := by
        refine Mirrors.of_end (fun t ht => (Search.seen_visit ht :)) fun hs t _ _ => ?_
        have hm : m ∈ R := hs m (hqueue ▸ List.mem_cons_self)
        refine (Search.keeps_visit h hagrees hm _).after subset_rfl fun hs _ k hk => ?_
        exact hs k (hqueue ▸ List.mem_cons_of_mem m hk)
      exact hvisit.bind fun t _ => ih t

theorem build_agrees (h : p'.withoutBodies = p.withoutBodies) (hagrees : p.Agrees R p')
    (hbuild : (build p entry).result = .ok g) (hR : ∀ m ∈ g.reachable, m ∈ R) :
    build p' entry = build p entry := by
  obtain ⟨g', hrun, hbuild⟩ := Traced.bind_ok_iff.mp hbuild
  cases hbuild
  have hkeeps := Search.keeps_run h hagrees (p.methods.size + 2)
    ⟨(CallGraph.empty.addEntry entry).addReachable entry, [entry]⟩
  have hentry : ∀ m ∈ [entry], m ∈ R := fun m hm =>
    hR m (hkeeps.grows g hrun (CallGraph.mem_addReachable.mpr (.inr (List.mem_singleton.mp hm))))
  unfold build
  dsimp only
  rw [hagrees.size, (hkeeps.same hentry g hrun hR).1]

end ProgramAnalysis.ClassHierarchy
