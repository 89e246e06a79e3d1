import ProgramAnalysis.Proofs.Counting
import ProgramAnalysis.Proofs.PointsTo.Statement

/-! One step of the solver: the pending methods are processed, then one entry of the work list is
delivered and what follows from the objects that are new at their node is done. `Settled` says that
nothing is overdue; a step keeps it. -/
namespace ProgramAnalysis.PointsTo

variable {q : Problem} {S : Facts} {s t : State} {m entry : MethodId}

/-- Nothing is overdue: edges are bound, objects held by variables have been followed up, and the
statements of reachable methods are done unless their method is pending. -/
structure Settled (q : Problem) (s : State) : Prop where
  bound : ∀ {e}, e ∈ s.calls.edges → Bound q s e
  arrived : ∀ {v o site st kind}, s.graph.Holds (.var v) o → q.program.stmt? site = some st →
    st.through? = some (kind, v) → ArrivalDone q s o site st
  done : ∀ {site st}, site.method ∈ s.calls.reachable → q.program.stmt? site = some st →
    site.method ∈ s.pending ∨ StmtDone q s site st

/-- What was overdue in `s` has been done on the way to `t`. -/
theorem Settled.of_progress (hst : Progress q s t)
    (hbound : ∀ {e}, e ∈ s.calls.edges → Bound q s e)
    (harrived : ∀ {v o site st kind}, s.graph.Holds (.var v) o → q.program.stmt? site = some st →
      st.through? = some (kind, v) → ArrivalDone q t o site st)
    (hdone : ∀ {site st}, site.method ∈ s.calls.reachable → q.program.stmt? site = some st →
      site.method ∈ s.pending ∨ StmtDone q t site st) : Settled q t where
  bound he := by
    rcases hst.linked he with he | hb
    · exact (hbound he).mono hst.toExtends.grows
    · exact hb
  arrived ho hs ht := harrived (hst.holds.mp ho) hs ht
  done {site st} hm hs := by
    obtain ⟨ms, hreach, hpend⟩ := hst.reached
    rw [← Array.mem_toList_iff, hreach] at hm
    rw [hpend]
    rcases List.mem_append.mp hm with hm | hm
    · exact (hdone (Array.mem_toList_iff.mp hm) hs).imp_left (List.mem_append_left ms)
    · exact .inl (List.mem_append_right _ hm)

/-! ### Pending methods -/

theorem Inv.reachable_size_le (hs : Inv q S s) :
    s.calls.reachable.size ≤ q.program.methods.size := by
  rw [← Array.length_toList]
  exact length_le_of_index_lt hs.nodup fun m hm => (hs.reachable (Array.mem_toList_iff.mp hm)).2

theorem Inv.processMethod (hp : Serves q S) (hS : S.Satisfies q entry) (hs : Inv q S s)
    (hm : m ∈ S.reachable) (hlt : m.index < q.program.methods.size) :
    Traced.Returns (processMethod q s m) fun t => Inv q S t ∧ Progress q s t ∧
      ∀ i st, q.program.stmt? ⟨m, i⟩ = some st → StmtDone q t ⟨m, i⟩ st := by
  unfold PointsTo.processMethod
  rw [Traced.returns_lift_bind (Program.getBody_eq hlt)]
  cases hb : q.program.body? m with
  | none =>
    refine Traced.returns_pure.mpr ⟨hs, .refl s, fun i st h => ?_⟩
    simp [Program.stmt?, hb] at h
  | some body =>
    refine (Traced.Returns.foldlM (I := Inv q S) (R := Progress q)
      (D := fun e t => StmtDone q t ⟨m, e.1⟩ e.2) Progress.refl Progress.trans
      ?_ (fun e he t ht => ?_) hs).mono ?_
    · intro e t u htu hd
      exact hd.mono htu.toExtends.grows
    · have hstmt : q.program.stmt? ⟨m, e.1⟩ = some e.2 :=
        Program.stmt?_eq_some_iff.mpr ⟨body, hb, Program.mem_indexed.mp he⟩
      exact ht.processStmt hp hS hm hstmt
    · intro t hr
      obtain ⟨hinv, hprog, hall⟩ := hr
      refine ⟨hinv, hprog, fun i st h => ?_⟩
      obtain ⟨body', hb', hi⟩ := Program.stmt?_eq_some_iff.mp h
      rw [hb] at hb'
      cases hb'
      exact hall (i, st) (Program.mem_indexed.mpr hi)

/-- Each method processed leaves `pending`, and only methods that become reachable enter it. -/
theorem Inv.processPending (hp : Serves q S) (hS : S.Satisfies q entry) (fuel : Nat)
    (hs : Inv q S s) (hset : Settled q s)
    (hfuel : q.program.methods.size + s.pending.length < fuel + s.calls.reachable.size) :
    Traced.Returns (processPending q fuel s) fun t =>
      Inv q S t ∧ Settled q t ∧ Grows s t ∧ t.pending = [] := by
  induction fuel generalizing s with
  | zero =>
    have := hs.reachable_size_le
    omega
  | succ fuel ih =>
    unfold PointsTo.processPending
    split
    · next hnil => exact Traced.returns_pure.mpr ⟨hs, hset, (Extends.refl s).grows, hnil⟩
    · next m pending hcons =>
      have hsuffix : pending <:+ s.calls.reachable.toList :=
        (List.suffix_cons m pending).trans (hcons ▸ hs.pending)
      have hm : m ∈ s.calls.reachable := by
        refine Array.mem_toList_iff.mp (hs.pending.subset ?_)
        rw [hcons]
        exact List.mem_cons_self
      obtain ⟨hmS, hlt⟩ := hs.reachable hm
      have hpop : Inv q S { s with pending } :=
        hs.withCalls hs.edge hs.reachable hs.nodup hsuffix
      refine (hpop.processMethod hp hS hmS hlt).bind ?_
      intro t h
      obtain ⟨hinv, hprog, hdone⟩ := h
      have hpopped : Grows s { s with pending } := ⟨s.heap.le_refl, id, id, id, id, id, id⟩
      have hgrows := hpopped.trans hprog.toExtends.grows
      have hset' : Settled q t := by
        refine Settled.of_progress hprog ?_ ?_ ?_
        · intro e he
          exact ⟨(hset.bound he).reachable, (hset.bound he).flows⟩
        · intro v o site st kind ho hst ht
          exact (hset.arrived ho hst ht).mono hgrows
        · intro site st hsite hst
          rcases hset.done hsite hst with hpend | hd
          · rw [hcons] at hpend
            rcases List.mem_cons.mp hpend with heq | hpend
            · subst heq
              exact .inr (hdone site.index st hst)
            · exact .inl hpend
          · exact .inr (hd.mono hgrows)
      have hfuel' : q.program.methods.size + t.pending.length < fuel + t.calls.reachable.size := by
        obtain ⟨ms, hreach, hpend⟩ := hprog.reached
        have hlen := congrArg List.length hreach
        rw [List.length_append, Array.length_toList, Array.length_toList] at hlen
        rw [hpend, hlen, List.length_append]
        rw [hcons, List.length_cons] at hfuel
        dsimp only at *
        omega
      refine (ih hinv hset' hfuel').mono ?_
      intro u hu
      obtain ⟨hinv', hset'', hgrows', hnil⟩ := hu
      exact ⟨hinv', hset'', hgrows.trans hgrows', hnil⟩

end ProgramAnalysis.PointsTo
