import ProgramAnalysis.Constant.Inter
import ProgramAnalysis.Proofs.Constant.Equations
import ProgramAnalysis.Proofs.Dataflow.Icfg

/-! Constant propagation across calls. After a call, the fact for its result lies above what each
callee with a body returns, and is `nac` if there is none. A callee without a body beside one with a
body is left out. -/
namespace ProgramAnalysis

variable {p : Program} {f : Fact}

theorem Fact.Within.erase (hf : f.Within p) (v : VarId) : (f.erase v).Within p := by
  intro w hw
  rw [get_erase] at hw
  split at hw
  · exact absurd rfl hw
  · exact hf w hw

/-- Parameters are variables of the program. -/
def Program.ParamsInRange (p : Program) : Prop :=
  ∀ m b, p.body? m = some b → ∀ v ∈ b.params, v.index < p.vars.size

namespace Constant

variable {calls : CallGraph} {g : Icfg} {facts : Facts} {m c : MethodId} {b : Body} {x : VarId}
  {n : Node} {e : FlowEdge} {result : Option VarId} {call : Call} {outs : Node → Fact}
  {cs found : List MethodId} {w : Value}

/-! ### Calls -/

/-- A call changes no variable but its result, and of that nothing is known. -/
theorem get_transfer_invoke (hs : p.stmtAt? n = some (.invoke result call)) (f : Fact) (v : VarId) :
    (transfer p n f).get v = if result = some v ∧ p.holdsInt v then .nac else f.get v := by
  unfold transfer
  rw [hs]
  cases result with
  | none => simp [transferStmt]
  | some x =>
    by_cases hx : p.holdsInt x
    · simp only [transferStmt, hx, if_true, Fact.get_set, Option.some.injEq]
      by_cases hv : x = v
      · subst hv
        simp [hx]
      · simp [hv]
    · simp only [transferStmt, hx, Option.some.injEq]
      by_cases hv : x = v
      · subst hv
        simp [hx]
      · simp [hv]

theorem callAt?_eq (hs : p.stmtAt? n = some (.invoke result call)) :
    callAt? p n = some (result, call.args) := by
  unfold callAt?
  rw [hs]

theorem get_forgetResult (hs : p.stmtAt? n = some (.invoke result call)) (f : Fact) (v : VarId) :
    (forgetResult p n f).get v = if result = some v then .undef else f.get v := by
  unfold forgetResult
  rw [callAt?_eq hs]
  cases result with
  | none => simp
  | some x => simp [Fact.get_erase]

/-- The way back binds the result, if it holds an int, and nothing else. -/
theorem get_bindResult (hs : p.stmtAt? n = some (.invoke result call)) (c : MethodId) (k : Node)
    (f : Fact) (v : VarId) : (bindResult p (Icfg.leave n k c) f).get v =
      if result = some v ∧ p.holdsInt v then returned p c f else .undef := by
  have hof : callOf? p (Icfg.leave n k c) = some (result, call.args) := callAt?_eq hs
  unfold bindResult
  rw [hof]
  cases result with
  | none => simp
  | some x =>
    by_cases hx : p.holdsInt x
    · simp only [hx, if_true, Fact.get_set, Option.some.injEq, Fact.get_empty]
      by_cases hv : x = v
      · subst hv
        simp [hx]
        rfl
      · simp [hv]
    · simp only [hx, Option.some.injEq]
      by_cases hv : x = v
      · subst hv
        simp [hx]
      · simp [hv]

theorem stmtAt?_source {i : Nat} (hm : Icfg.Includes p calls m b)
    (hs : b.stmt? i = some (.invoke result call)) (hsource : e.source = .stmt m i) :
    p.stmtAt? e.source = some (.invoke result call) := by
  rw [hsource, Program.stmtAt?_stmt, hm.2]
  exact hs

/-! ### The solution -/

theorem mem_paramsOf_of_bindings {arg : VarId} (h : (x, arg) ∈ bindings p e) :
    x ∈ paramsOf p e.target.method := by
  unfold bindings at h
  split at h
  · exact (List.of_mem_zip h).1
  · cases h

/-- Only parameters that hold an int are bound. -/
theorem param_of_bindArgs (h : (bindArgs p e f).get x ≠ .undef) :
    x ∈ paramsOf p e.target.method ∧ p.holdsInt x := by
  have hfold : ∀ (xs : List (VarId × VarId)) (b : Fact),
      (xs.foldl (fun b y => if p.holdsInt y.1 then b.set y.1 (f.get y.2) else b) b).get x ≠ .undef →
        b.get x ≠ .undef ∨ x ∈ xs.map (·.1) ∧ p.holdsInt x := by
    intro xs
    induction xs with
    | nil => exact fun _ h => .inl h
    | cons y xs ih =>
      intro b h
      rcases ih _ h with hb | ⟨hmem, hint⟩
      · dsimp only at hb
        split at hb
        · next hy =>
          rw [Fact.get_set] at hb
          split at hb
          · next heq => exact .inr ⟨heq ▸ List.mem_cons_self, heq ▸ hy⟩
          · exact .inl hb
        · exact .inl hb
      · exact .inr ⟨List.mem_cons_of_mem _ hmem, hint⟩
  rcases hfold _ _ h with hempty | ⟨hmem, hint⟩
  · exact absurd rfl hempty
  · obtain ⟨⟨y, arg⟩, hbind, rfl⟩ := List.mem_map.mp hmem
    exact ⟨mem_paramsOf_of_bindings hbind, hint⟩

theorem within_carryEdge (e : FlowEdge) (hf : f.Within p) : (carryEdge p e f).Within p := by
  unfold carryEdge
  split
  · exact hf
  · unfold forgetResult
    split
    · exact hf.erase _
    · exact hf
  · exact fun v hv => (param_of_bindArgs hv).2
  · unfold bindResult
    split
    · split
      · next hx => exact Fact.within_empty.set hx _
      · exact Fact.within_empty
    · exact Fact.within_empty

theorem transfer_of_lookup_none (h : g.linked.lookup n = none) :
    (interAnalysis p g).transfer n f = transfer p n f := by
  have hlinked : g.isLinked n = false := by rw [Icfg.isLinked_eq, h]; rfl
  exact if_neg (by simp [hlinked])

theorem transfer_of_lookup_some (h : g.linked.lookup n = some found) :
    (interAnalysis p g).transfer n f = f := by
  have hlinked : g.isLinked n = true := by rw [Icfg.isLinked_eq, h]; rfl
  exact if_pos hlinked

theorem carryEdge_within (he : e ∈ (Cfg.ofBody m b).graph.edges) : carryEdge p e f = f := by
  obtain ⟨flow, hkind⟩ := Cfg.kind_of_mem_edges he
  unfold carryEdge
  rw [hkind]

theorem mem_boundaryNodes (hj : Icfg.Joins p calls g) :
    n ∈ Dataflow.boundaryNodes g.graph (interAnalysis p g) ↔ ∃ m ∈ calls.entries, n = .entry m := by
  show n ∈ g.graph.ends.map (·.1) ↔ _
  rw [hj.ends]
  simp [eq_comm]

theorem laws_inter (hj : Icfg.Joins p calls g) :
    Dataflow.Laws g.graph (interAnalysis p g) (Fact.Within p) (Fact.rank p) := by
  refine laws_of rfl rfl rfl rfl (fun n f hf => ?_) (fun e f => within_carryEdge e) ?_
  · show Fact.Within p (if g.isLinked n then f else transfer p n f)
    split
    · exact hf
    · exact within_transfer n hf
  · intro n hn f
    obtain ⟨m, _, rfl⟩ := (mem_boundaryNodes hj).mp hn
    show (if g.isLinked (.entry m) then f else f) = f
    rw [ite_self]

theorem solveIcfg_ok_iff : (solveIcfg p g).result = .ok facts ↔
    p.checkVars (boundVars p g) = .ok () ∧
      facts = Dataflow.solve g.graph (interAnalysis p g) := by
  unfold solveIcfg
  rw [Traced.result_bind, Traced.result_lift, bind_ok_iff]
  constructor
  · intro ⟨_, hcheck, h⟩
    exact ⟨hcheck, (Except.ok.inj h).symm⟩
  · intro ⟨hcheck, heq⟩
    exact ⟨(), hcheck, congrArg Except.ok heq.symm⟩

theorem mem_paramsOf {v : VarId} (h : v ∈ paramsOf p m) : ∃ b, p.body? m = some b ∧ v ∈ b.params := by
  unfold paramsOf at h
  split at h
  · next b hb => exact ⟨b, hb, h⟩
  · cases h

/-- The analysis does not fail: it binds parameters only. -/
theorem solveIcfg_eq (hparams : p.ParamsInRange) (g : Icfg) :
    (solveIcfg p g).result = .ok (Dataflow.solve g.graph (interAnalysis p g)) := by
  refine solveIcfg_ok_iff.mpr ⟨Program.checkVars_ok fun v hv => ?_, rfl⟩
  have hparam : ∃ m, v ∈ paramsOf p m := by
    unfold boundVars at hv
    rcases List.mem_append.mp hv with hv | hv
    · obtain ⟨e, _, hv⟩ := List.mem_flatMap.mp hv
      exact ⟨_, hv⟩
    · obtain ⟨e, _, hv⟩ := List.mem_flatMap.mp hv
      obtain ⟨⟨v, arg⟩, hbind, rfl⟩ := List.mem_map.mp hv
      exact ⟨_, mem_paramsOf_of_bindings hbind⟩
  obtain ⟨m, hv⟩ := hparam
  obtain ⟨b, hb, hv⟩ := mem_paramsOf hv
  exact hparams m b hb v hv

/-! ### What callees return -/

/-- What a callee may return, if it has a body by the fact at its exit. -/
def contribution (p : Program) (outs : Node → Fact) (c : MethodId) : Value :=
  match p.body? c with
  | some _ => returned p c (outs (.exit c))
  | none => .nac

/-- What a call of these may return; nothing is known of a call without callees. -/
def resultOver (p : Program) (outs : Node → Fact) (cs : List MethodId) : Value :=
  if cs = [] then .nac else (cs.map (contribution p outs)).foldr Value.meet .undef

theorem resultOver_le (hnil : cs = [] → w = .nac)
    (h : ∀ c ∈ cs, (contribution p outs c).meet w = w) : (resultOver p outs cs).meet w = w := by
  unfold resultOver
  split
  · next heq => rw [hnil heq, Value.meet_self]
  · exact Value.foldr_meet_eq_right_iff.mpr (List.forall_mem_map.mpr h)

/-! ### The result of a call -/

section Result

variable {ins : Node → Fact} {i : Nat}
  (hj : Icfg.Joins p calls g) (hcalls : calls.Closed)
  (hgives : (Dataflow.solve g.graph (interAnalysis p g)).Gives g.graph ins outs)
include hj hcalls hgives

/-- An edge of the graph brings its fact, unless it goes to the entry of an entry method. -/
theorem carry_le_ins (he : e ∈ g.graph.edges) (hentry : ∀ m ∈ calls.entries, e.target ≠ .entry m) :
    (carryEdge p e (outs e.source)).meet (ins e.target) = ins e.target := by
  have hclosed := hj.closed hcalls
  have hfixed : Dataflow.Fixed g.graph (interAnalysis p g) (Fact.Within p) _ _ :=
    Dataflow.solve_fixed (laws_inter hj) hclosed
  obtain ⟨hsource, htarget⟩ := hclosed e he
  refine hfixed.fed e he (.inl fun h => ?_) _ _ (hgives _ hsource).2 (hgives _ htarget).1
  obtain ⟨m, hm, heq⟩ := (mem_boundaryNodes hj).mp h
  exact hentry m hm heq

theorem outs_eq (hn : n ∈ g.graph.nodes) : outs n = (interAnalysis p g).transfer n (ins n) := by
  have hfixed : Dataflow.Fixed g.graph (interAnalysis p g) (Fact.Within p) _ _ :=
    Dataflow.solve_fixed (laws_inter hj) (hj.closed hcalls)
  obtain ⟨x, hx, _, _, hout⟩ := hfixed.defined n hn
  obtain ⟨hin, hout'⟩ := hgives n hn
  rw [hin] at hx
  rw [hout'] at hout
  cases hx
  exact Option.some.inj hout

theorem within_ins (hn : n ∈ g.graph.nodes) : (ins n).Within p := by
  have hfixed : Dataflow.Fixed g.graph (interAnalysis p g) (Fact.Within p) _ _ :=
    Dataflow.solve_fixed (laws_inter hj) (hj.closed hcalls)
  obtain ⟨f, hf, hwithin, _, _⟩ := hfixed.defined n hn
  cases (hgives n hn).1.symm.trans hf
  exact hwithin

variable (hm : Icfg.Includes p calls m b) (he : e ∈ (Cfg.ofBody m b).graph.edges)
include hm he

/-- An edge out of a node that is not linked brings what its statement leaves. -/
theorem transfer_le (hlookup : g.linked.lookup e.source = none) :
    (transfer p e.source (ins e.source)).meet (ins e.target) = ins e.target := by
  have hmem : e ∈ g.graph.edges := hj.mem_edges.mpr (.within hm he hlookup)
  have hle := carry_le_ins hj hcalls hgives hmem fun _ _ => Cfg.target_ne_entry he
  rwa [carryEdge_within he, outs_eq hj hcalls hgives (hj.closed hcalls e hmem).1,
    transfer_of_lookup_none hlookup] at hle

/-- The way past a linked call brings what was known before it, but for its result. -/
theorem forgetResult_le (hlookup : g.linked.lookup e.source = some found) :
    (forgetResult p e.source (ins e.source)).meet (ins e.target) = ins e.target := by
  have hmem : Icfg.past e.source e.target ∈ g.graph.edges :=
    hj.mem_edges.mpr (.past hm he hlookup)
  have hout : outs e.source = ins e.source :=
    (outs_eq hj hcalls hgives (hj.closed hcalls _ hmem).1).trans (transfer_of_lookup_some hlookup)
  have hentry : ∀ k ∈ calls.entries, e.target ≠ .entry k := fun _ _ => Cfg.target_ne_entry he
  have hle := carry_le_ins hj hcalls hgives hmem hentry
  exact hout ▸ hle

variable (hs : b.stmt? i = some (.invoke (some x) call)) (hx : p.holdsInt x)
  (hsource : e.source = .stmt m i)
include hs hx hsource

/-- The way back from a callee brings what it returns. -/
theorem returned_le (hlookup : g.linked.lookup (.stmt m i) = some found)
    (hc : c ∈ found) :
    (returned p c (outs (.exit c))).meet ((ins e.target).get x) = (ins e.target).get x := by
  let ret : FlowEdge := Icfg.leave e.source e.target c
  have hret : ret ∈ g.graph.edges :=
    hj.mem_edges.mpr (.leave hm he (hsource ▸ hlookup) hc)
  have hentry : ∀ k ∈ calls.entries, ret.target ≠ .entry k := fun k _ =>
    (Cfg.target_ne_entry he : e.target ≠ .entry k)
  have hle := Fact.meet_eq_right_iff.mp (carry_le_ins hj hcalls hgives hret hentry) x
  have hcarry : (carryEdge p ret (outs ret.source)).get x = returned p c (outs (.exit c)) :=
    (get_bindResult (stmtAt?_source hm hs hsource) c e.target _ x).trans (if_pos ⟨rfl, hx⟩)
  rwa [hcarry] at hle

/-- A call without linked callees loses its result. -/
theorem get_eq_nac (hlookup : g.linked.lookup (.stmt m i) = none) :
    (ins e.target).get x = .nac := by
  have hle := Fact.meet_eq_right_iff.mp
    (transfer_le hj hcalls hgives hm he (hsource ▸ hlookup)) x
  rw [get_transfer_invoke (stmtAt?_source hm hs hsource), if_pos ⟨rfl, hx⟩, Value.nac_meet] at hle
  exact hle.symm

end Result

/-- Behind a call of a reachable method, the fact for its result lies above the meet of what its
callees with bodies return, and is `nac` if it has none. -/
theorem solveIcfg_accounts (hcalls : CallGraph.Found p calls)
    (hg : (Icfg.build p calls).result = .ok g) (hfacts : (solveIcfg p g).result = .ok facts) :
    ∃ ins outs, facts.Gives g.graph ins outs ∧
      ∀ m b i x call, Icfg.Includes p calls m b → b.stmt? i = some (.invoke (some x) call) →
        p.holdsInt x → ∀ e ∈ (Cfg.ofBody m b).graph.edges, e.source = .stmt m i →
          e.target ∈ g.graph.nodes ∧
          (∀ c ∈ calls.callees ⟨m, i⟩, (p.body? c).isSome → .exit c ∈ g.graph.nodes) ∧
          (resultOver p outs ((calls.callees ⟨m, i⟩).filter fun c => (p.body? c).isSome)).meet
            ((ins e.target).get x) = (ins e.target).get x := by
  have hj := Icfg.build_joins hg
  have hclosed := hcalls.closed
  have hgives := Dataflow.solve_gives (laws_inter (p := p) hj) (hj.closed hclosed)
  obtain ⟨-, rfl⟩ := solveIcfg_ok_iff.mp hfacts
  refine ⟨_, _, hgives, fun m b i x call hm hs hx e he hsource => ⟨?_, fun c hc hbody => ?_, ?_⟩⟩
  · exact (hj.nodes _).mpr ⟨m, b, hm, (Cfg.closed_ofBody m b e he).2⟩
  · obtain ⟨b', hb'⟩ := Option.isSome_iff_exists.mp hbody
    exact (hj.nodes _).mpr ⟨c, b', ⟨hclosed.mem_callees hc, hb'⟩, Cfg.mem_nodes.mpr (.inr (.inl rfl))⟩
  · obtain ⟨found, hfound⟩ := hj.resolved hm hs
    have hlookup := hj.lookup_eq hm hs hfound
    have hmem : ∀ c, c ∈ (calls.callees ⟨m, i⟩).filter (fun c => (p.body? c).isSome) ↔ c ∈ found := by
      intro c
      rw [Icfg.mem_withBody hfound, List.mem_filter, Option.isSome_iff_exists]
    refine resultOver_le (fun hnil => ?_) fun c hc => ?_
    · have hfound : found = [] := List.eq_nil_iff_forall_not_mem.mpr fun c hc => by
        have hc := (hmem c).mpr hc
        rw [hnil] at hc
        cases hc
      rw [if_pos hfound] at hlookup
      exact get_eq_nac hj hclosed hgives hm he hs hx hsource hlookup
    · have hne : found ≠ [] := List.ne_nil_of_mem ((hmem c).mp hc)
      rw [if_neg hne] at hlookup
      have hle := returned_le hj hclosed hgives hm he hs hx hsource hlookup ((hmem c).mp hc)
      obtain ⟨b', hb'⟩ := Option.isSome_iff_exists.mp (List.mem_filter.mp hc).2
      unfold contribution
      rw [hb']
      exact hle

/-- `r = 7; return r`. -/
def seven : Body := ⟨none, [], #[.assign ⟨0⟩ (.int 7), .ret (some ⟨0⟩)]⟩

/-- `x = o.f(); return`. -/
def caller : Body where
  this := none
  params := [⟨1⟩]
  stmts := #[.invoke (some ⟨2⟩) ⟨.virtual, ⟨⟨0⟩, "int f()"⟩, some ⟨1⟩, []⟩, .ret none]

/-- `f` has no body in `A`, and one in `B`, which extends `A`. -/
def nativesBuilder : Builder where
  classes := #[⟨"A", none, [], false, false, [("int f()", ⟨0⟩), ("void main(A)", ⟨2⟩)], []⟩,
    ⟨"B", some ⟨0⟩, [], false, false, [("int f()", ⟨1⟩)], []⟩]
  fields := #[]
  methods := #[⟨"int f()", ⟨0⟩, false, false, none⟩, ⟨"int f()", ⟨1⟩, false, false, some seven⟩,
    ⟨"void main(A)", ⟨0⟩, true, false, some caller⟩]
  vars := #[⟨"r", .int, ⟨1⟩⟩, ⟨"o", .cls ⟨0⟩, ⟨2⟩⟩, ⟨"x", .int, ⟨2⟩⟩]
  entry := some ⟨2⟩
  root := none

def natives : Program := nativesBuilder.program

theorem accepted_natives : natives.Accepted := by
  have hf := ((Builder.Built.empty.addClass "A" none).addClass "B" (some ⟨0⟩)).addMethod
    (rfl : Builder.addMethod _ ⟨0⟩ "int f()" false = .ok (_, _))
  have hg := hf.addMethod (rfl : Builder.addMethod _ ⟨1⟩ "int f()" false = .ok (_, _))
  have hmain := hg.addMethod (rfl : Builder.addMethod _ ⟨0⟩ "void main(A)" true = .ok (_, _))
  have hvars := ((hmain.addVar ⟨1⟩ "r" .int).addVar ⟨2⟩ "o" (.cls ⟨0⟩)).addVar ⟨2⟩ "x" .int
  have hseven := hvars.setBody (rfl : Builder.setBody _ ⟨1⟩ seven = .ok _)
  have hcaller := hseven.setBody (rfl : Builder.setBody _ ⟨2⟩ caller = .ok _)
  exact ⟨nativesBuilder, hcaller.setEntry ⟨2⟩, rfl⟩

/-- Both methods may be called. -/
def nativesCalls : CallGraph where
  entries := [⟨2⟩]
  reachable := #[⟨2⟩, ⟨0⟩, ⟨1⟩]
  edges := #[⟨.virtual, ⟨⟨2⟩, 0⟩, ⟨0⟩⟩, ⟨.virtual, ⟨⟨2⟩, 0⟩, ⟨1⟩⟩]

theorem found_natives : CallGraph.Found natives nativesCalls := by
  have hbuild : (ClassHierarchy.build natives ⟨2⟩).result = .ok nativesCalls := by decide +kernel
  exact .hierarchy hbuild

theorem includes_caller : Icfg.Includes natives nativesCalls ⟨2⟩ caller := by
  refine ⟨?_, rfl⟩
  simp [nativesCalls]

def nativesGraph : Icfg :=
  Icfg.assemble [⟨2⟩] [Cfg.ofBody ⟨2⟩ caller, Cfg.ofBody ⟨1⟩ seven] [(.stmt ⟨2⟩ 0, [⟨1⟩])]

theorem build_natives : (Icfg.build natives nativesCalls).result = .ok nativesGraph := rfl

theorem solveIcfg_natives : (solveIcfg natives nativesGraph).result =
    .ok (Dataflow.solve nativesGraph.graph (interAnalysis natives nativesGraph)) :=
  solveIcfg_ok_iff.mpr ⟨by decide +kernel, rfl⟩

/-- What the method with a body returns is accounted for. -/
theorem solveIcfg_accounts_natives : ∃ facts ins outs,
    (solveIcfg natives nativesGraph).result = .ok facts ∧ facts.Gives nativesGraph.graph ins outs ∧
      (resultOver natives outs [⟨1⟩]).meet ((ins (.stmt ⟨2⟩ 1)).get ⟨2⟩) =
        (ins (.stmt ⟨2⟩ 1)).get ⟨2⟩ := by
  obtain ⟨ins, outs, hgives, haccounts⟩ :=
    solveIcfg_accounts found_natives build_natives solveIcfg_natives
  obtain ⟨-, -, hle⟩ := haccounts ⟨2⟩ caller 0 ⟨2⟩ _ includes_caller rfl (by decide)
    (.within (.stmt ⟨2⟩ 0) (.stmt ⟨2⟩ 1) .fallThrough) (by decide) rfl
  exact ⟨_, ins, outs, solveIcfg_natives, hgives, hle⟩

/-- What the method without a body returns is left out: of the result 7 is known. -/
theorem solveIcfg_misses_native : natives.Accepted ∧ CallGraph.Found natives nativesCalls ∧
    (Icfg.build natives nativesCalls).result = .ok nativesGraph ∧
    ∃ facts ins outs, (solveIcfg natives nativesGraph).result = .ok facts ∧
      facts.Gives nativesGraph.graph ins outs ∧ Icfg.Includes natives nativesCalls ⟨2⟩ caller ∧
      natives.holdsInt ⟨2⟩ ∧
      Edge.within (.stmt ⟨2⟩ 0) (.stmt ⟨2⟩ 1) .fallThrough ∈ (Cfg.ofBody ⟨2⟩ caller).graph.edges ∧
      resultOver natives outs (nativesCalls.callees ⟨⟨2⟩, 0⟩) = .nac ∧
      (ins (.stmt ⟨2⟩ 1)).get ⟨2⟩ = .constant 7 := by
  have hj := Icfg.build_joins build_natives
  have hgives := Dataflow.solve_gives (laws_inter hj) (hj.closed found_natives.closed)
  refine ⟨accepted_natives, found_natives, build_natives, _, _, _, solveIcfg_natives, hgives,
    includes_caller, by decide, by decide, ?_, ?_⟩
  · decide +kernel
  · decide +kernel

end Constant
end ProgramAnalysis
