import ProgramAnalysis.Proofs.Constant.Calls
import ProgramAnalysis.Proofs.Constant.Monotone
import ProgramAnalysis.Proofs.Dataflow.Invariant

/-! Constant propagation across calls keeps methods apart. The facts at a node map variables of the
node's method only, although control goes in and out of callees in cycles: the way in binds
parameters of the callee, and the way back binds the result of the call. At the entry of a method
that is no entry method, nothing is known of a parameter beyond what the linked calls pass for it.
-/
namespace ProgramAnalysis

variable {p : Program} {m k : MethodId} {n : Node} {v : VarId} {s : Stmt} {f h : Fact}

/-- The variable holds an int, belongs to the method, and is a parameter of it or defined by one of
its statements. -/
structure Program.Tracks (p : Program) (m : MethodId) (v : VarId) : Prop where
  holdsInt : p.holdsInt v
  owned : p.Owns m v
  introduced : v ∈ Constant.paramsOf p m ∨ ∃ i s, p.stmt? ⟨m, i⟩ = some s ∧ s.def? = some v

/-- The fact maps variables of the method only. -/
def Fact.StaysIn (p : Program) (m : MethodId) (f : Fact) : Prop :=
  ∀ v, f.get v ≠ .undef → p.Tracks m v

namespace Constant

variable {calls : CallGraph} {g : Icfg} {e : FlowEdge} {ins outs : Node → Fact}
  {l : Node × List MethodId}

/-! ### Calls that pass arguments -/

/-- The argument that a call passes for a parameter of the method; if that is listed several times,
the last. -/
def argument? (p : Program) (n : Node) (k : MethodId) (v : VarId) : Option VarId :=
  (callAt? p n).bind fun call => ((paramsOf p k).zip call.2).reverse.lookup v

/-- The meet, over all linked calls of the method, of what is known of the arguments passed for a
parameter. -/
def passed (p : Program) (g : Icfg) (outs : Node → Fact) (k : MethodId) (v : VarId) : Value :=
  ((g.linked.filter fun l => k ∈ l.2).filterMap fun l =>
    (argument? p l.1 k v).map (outs l.1).get).foldr Value.meet .undef

theorem lookup_bindings (n : Node) (k : MethodId) (v : VarId) :
    (bindings p (Icfg.enter n k)).reverse.lookup v = argument? p n k v := by
  have hcall : callOf? p (Icfg.enter n k) = callAt? p n := rfl
  unfold bindings argument?
  rw [hcall]
  cases callAt? p n <;> rfl

/-- A call binds to a parameter what is known of its argument. -/
theorem get_bindArgs (n : Node) (k : MethodId) (f : Fact) (v : VarId) :
    (bindArgs p (Icfg.enter n k) f).get v =
      if p.holdsInt v then ((argument? p n k v).map f.get).getD .undef else .undef := by
  have hfold : ∀ (xs : List (VarId × VarId)) (b : Fact),
      (xs.foldl (fun b y => if p.holdsInt y.1 then b.set y.1 (f.get y.2) else b) b).get v =
        if p.holdsInt v then ((xs.reverse.lookup v).map f.get).getD (b.get v) else b.get v := by
    intro xs
    induction xs with
    | nil => simp
    | cons y xs ih =>
      obtain ⟨param, arg⟩ := y
      intro b
      rw [List.foldl_cons, ih, List.reverse_cons, List.lookup_append]
      by_cases hv : param = v
      · subst hv
        cases xs.reverse.lookup param <;> by_cases hint : p.holdsInt param <;>
          simp [hint, Fact.get_set]
      · have hset : (if p.holdsInt param then b.set param (f.get arg) else b).get v = b.get v := by
          split
          · rw [Fact.get_set, if_neg hv]
          · rfl
        have hnone : List.lookup v [(param, arg)] = none := by simp [Ne.symm hv]
        rw [hset, hnone, Option.or_none]
  rw [← lookup_bindings]
  exact hfold _ .empty

theorem passed_le_iff {x : Value} : passed p g outs k v ≤ x ↔
    ∀ l ∈ g.linked, k ∈ l.2 → ∀ arg, argument? p l.1 k v = some arg → (outs l.1).get arg ≤ x := by
  unfold passed
  rw [Value.le_iff_meet, Value.foldr_meet_eq_right_iff]
  simp only [List.mem_filterMap, List.mem_filter, decide_eq_true_eq, Option.map_eq_some_iff,
    Value.le_iff_meet]
  constructor
  · intro h l hl hk arg harg
    exact h _ ⟨l, ⟨hl, hk⟩, arg, harg, rfl⟩
  · rintro h _ ⟨l, ⟨hl, hk⟩, arg, harg, rfl⟩
    exact h l hl hk arg harg

/-- A linked call binds no more than all of them together pass. -/
theorem bindArgs_le_passed (hl : l ∈ g.linked) (hk : k ∈ l.2)
    (hle : ∀ v, f.get v ≤ (outs l.1).get v) (v : VarId) :
    (bindArgs p (Icfg.enter l.1 k) f).get v ≤ passed p g outs k v := by
  rw [get_bindArgs]
  split
  · cases harg : argument? p l.1 k v with
    | none => exact Value.undef_le _
    | some arg => exact le_trans (hle arg) (passed_le_iff.mp le_rfl l hl hk arg harg)
  · exact Value.undef_le _

/-- Only calls lead to an entry. -/
theorem call_of_target (hj : Icfg.Joins p calls g) (he : e ∈ g.graph.edges)
    (hk : e.target = .entry k) : ∃ l ∈ g.linked, k ∈ l.2 ∧ e = Icfg.enter l.1 k := by
  cases hj.mem_edges.mp he with
  | enter hl hc =>
    cases hk
    exact ⟨_, hl, hc, rfl⟩
  | within _ he' _ => exact absurd hk (Cfg.target_ne_entry he')
  | @past _ _ e' _ _ he' _ | @leave _ _ _ e' _ _ he' _ _ =>
    have hk : e'.target = .entry k := hk
    exact absurd hk (Cfg.target_ne_entry he')

/-! ### Facts stay in their methods -/

/-- The fact maps variables of the node's method only, and of these, at an entry, parameters. -/
def Local (p : Program) (n : Node) (f : Fact) : Prop :=
  f.StaysIn p n.method ∧ (n.point = .entry → ∀ v, f.get v ≠ .undef → v ∈ paramsOf p n.method)

theorem tracks_param (hparams : p.OwnsParams) (hv : v ∈ paramsOf p m) (hint : p.holdsInt v) :
    p.Tracks m v := by
  obtain ⟨b, hb, hmem⟩ := mem_paramsOf hv
  exact ⟨hint, hparams m b hb v hmem, .inl hv⟩

theorem tracks_def (hp : p.Accepted) (hs : p.stmtAt? n = some s) (hv : s.def? = some v)
    (hint : p.holdsInt v) : p.Tracks n.method v := by
  obtain ⟨k, point⟩ := n
  cases point with
  | entry | exit => cases hs
  | stmt i =>
    have hstmt : p.stmt? ⟨k, i⟩ = some s := (p.stmtAt?_stmt k i).symm.trans hs
    exact ⟨hint, hp.owns_def hstmt hv, .inr ⟨i, s, hstmt, hv⟩⟩

/-- A statement maps no variable but the one it defines. -/
theorem def_of_transferStmt (hv : (transferStmt p s f).get v ≠ .undef) :
    f.get v ≠ .undef ∨ s.def? = some v ∧ p.holdsInt v := by
  have hset : ∀ {x y}, p.holdsInt x → (f.set x y).get v ≠ .undef →
      f.get v ≠ .undef ∨ some x = some v ∧ p.holdsInt v := by
    intro x y hx hv
    rw [Fact.get_set] at hv
    split at hv
    · next heq => exact .inr ⟨congrArg some heq, heq ▸ hx⟩
    · exact .inl hv
  unfold transferStmt at hv
  split at hv
  · split at hv
    · next hx => exact hset hx hv
    · exact .inl hv
  · split at hv
    · next hx => exact hset hx hv
    · exact .inl hv
  · exact .inl hv

theorem Local.transfer (hp : p.Accepted) (hf : Local p n f) : Local p n (transfer p n f) := by
  unfold Constant.transfer
  cases hs : p.stmtAt? n with
  | none => exact hf
  | some s =>
    refine ⟨fun v hv => ?_, fun hentry => ?_⟩
    · rcases def_of_transferStmt hv with hv | ⟨hdef, hint⟩
      · exact hf.1 v hv
      · exact tracks_def hp hs hdef hint
    · obtain ⟨m, point⟩ := n
      cases hentry
      cases hs

theorem local_boundary (hparams : p.OwnsParams) (n : Node) : Local p n (boundary p n) := by
  have hparam : ∀ v, (boundary p n).get v ≠ .undef → v ∈ paramsOf p n.method ∧ p.holdsInt v := by
    intro v hv
    rw [get_boundary] at hv
    split at hv
    · next h => exact h
    · exact absurd rfl hv
  exact ⟨fun v hv => tracks_param hparams (hparam v hv).1 (hparam v hv).2,
    fun _ v hv => (hparam v hv).1⟩

theorem local_bindArgs (hparams : p.OwnsParams) (n : Node) (k : MethodId) (f : Fact) :
    Local p (.entry k) (bindArgs p (Icfg.enter n k) f) := by
  refine ⟨fun v hv => ?_, fun _ v hv => ?_⟩
  · obtain ⟨hparam, hint⟩ := param_of_bindArgs hv
    exact tracks_param hparams hparam hint
  · exact (param_of_bindArgs hv).1

theorem local_of_edge {b : Body} (he : e ∈ (Cfg.ofBody m b).graph.edges) (hf : f.StaysIn p m) :
    Local p e.target f := by
  obtain ⟨-, htarget⟩ := Cfg.closed_ofBody m b e he
  refine ⟨Cfg.method_of_mem_nodes htarget ▸ hf, fun hentry => ?_⟩
  exact absurd (congrArg (Node.mk e.target.method) hentry) (Cfg.target_ne_entry he)

/-- An edge brings into a callee its parameters, and out of a callee the result of the call. -/
theorem local_carry (hp : p.Accepted) (hparams : p.OwnsParams) (hj : Icfg.Joins p calls g)
    (he : e ∈ g.graph.edges) (hf : Local p e.source f) : Local p e.target (carryEdge p e f) := by
  have hmethod : ∀ {m b e}, e ∈ (Cfg.ofBody m b).graph.edges → e.source.method = m := fun he =>
    Cfg.method_of_mem_nodes (Cfg.closed_ofBody _ _ _ he).1
  cases hj.mem_edges.mp he with
  | enter _ _ => exact local_bindArgs hparams _ _ f
  | within _ he' _ =>
    rw [carryEdge_within he']
    exact local_of_edge he' (hmethod he' ▸ hf.1)
  | @past _ _ e' _ _ he' hlookup =>
    obtain ⟨result, call, hs⟩ := hj.stmtAt?_of_lookup hlookup
    show Local p e'.target _
    refine local_of_edge he' fun v hv => hmethod he' ▸ hf.1 v fun hundef => ?_
    have hforget : (forgetResult p e'.source f).get v ≠ .undef := hv
    rw [get_forgetResult hs, hundef, ite_self] at hforget
    exact hforget rfl
  | @leave _ c _ e' _ _ he' hlookup _ =>
    obtain ⟨result, call, hs⟩ := hj.stmtAt?_of_lookup hlookup
    show Local p e'.target _
    refine local_of_edge he' fun v hv => ?_
    have hbind : (bindResult p (Icfg.leave e'.source e'.target c) f).get v ≠ .undef := hv
    rw [get_bindResult hs] at hbind
    split at hbind
    · next h => exact hmethod he' ▸ tracks_def hp hs h.1 h.2
    · exact absurd rfl hbind

theorem kept_local (hp : p.Accepted) (hparams : p.OwnsParams) (hj : Icfg.Joins p calls g) :
    Dataflow.Kept g.graph (interAnalysis p g) (Local p) (Local p) where
  start n _ := by
    have hstart : Local p n (Dataflow.startFact g.graph (interAnalysis p g) n) := by
      unfold Dataflow.startFact
      split
      · exact local_boundary hparams n
      · exact ⟨fun v hv => absurd rfl hv, fun _ v hv => absurd rfl hv⟩
    exact ⟨hstart, hstart⟩
  transfer n _ f hf := by
    show Local p n (if g.isLinked n then f else Constant.transfer p n f)
    split
    · exact hf
    · exact hf.transfer hp
  carry e he f := local_carry hp hparams hj he
  meet n f h hf hh := ⟨fun v hv => (Fact.mapped_of_meet hv).elim (hf.1 v) (hh.1 v),
    fun hentry v hv => (Fact.mapped_of_meet hv).elim (hf.2 hentry v) (hh.2 hentry v)⟩

theorem transfer_of_linked (hl : l ∈ g.linked) : (interAnalysis p g).transfer l.1 f = f := by
  have hlinked : g.isLinked l.1 = true := List.any_eq_true.mpr ⟨l, hl, beq_self_eq_true l.1⟩
  exact if_pos hlinked

/-! ### The solution -/

section Solution

variable (hj : Icfg.Joins p calls g) (hcalls : calls.Closed)
  (hgives : (Dataflow.solve g.graph (interAnalysis p g)).Gives g.graph ins outs)
include hj hcalls hgives

theorem local_facts (hp : p.Accepted) (hparams : p.OwnsParams) (hn : n ∈ g.graph.nodes) :
    Local p n (ins n) ∧ Local p n (outs n) := by
  obtain ⟨hins, houts⟩ := Dataflow.holds_run (laws_inter hj) (hj.closed hcalls)
    (kept_local hp hparams hj)
  exact ⟨hins n _ (hgives n hn).1, houts n _ (hgives n hn).2⟩

theorem outs_entry (hk : .entry k ∈ g.graph.nodes) : outs (.entry k) = ins (.entry k) := by
  rw [outs_eq hj hcalls hgives hk]
  show (if g.isLinked (.entry k) then _ else _) = _
  exact ite_self _

variable (hentry : k ∉ calls.entries)
include hentry

/-- Arguments bound on the way pass no more than what is known of them in the end: a linked call
carries what has gathered, and that only rises. -/
theorem ins_entry_le_passed (hk : .entry k ∈ g.graph.nodes) (v : VarId) :
    (ins (.entry k)).get v ≤ passed p g outs k v := by
  have hl := laws_inter (p := p) hj
  have hclosed := hj.closed hcalls
  obtain ⟨t, ht, hnil, -, hsolve⟩ := Dataflow.rounds_solve hl hclosed
  have hin : t.gathered.get? (.entry k) = some (ins (.entry k)) := by
    have hin := (hgives _ hk).1
    rwa [hsolve] at hin
  refine Dataflow.gathered_induction (P := fun f => ∀ v, f.get v ≤ passed p g outs k v) hl hclosed ht
    hnil (fun f h hf hh v => ?_) (fun v => ?_) (fun e he hgoal f h hle => ?_)
    (fun e he hgoal f h hle hcarried v => ?_) hin v
  · show (Fact.meet f h).get v ≤ _
    rw [Value.le_iff_meet, Fact.get_meet, Value.meet_meet_eq_right_iff]
    exact ⟨Value.le_iff_meet.mp (hf v), Value.le_iff_meet.mp (hh v)⟩
  · have hstart : Dataflow.startFact g.graph (interAnalysis p g) (.entry k) = .empty := by
      refine if_neg fun hboundary => ?_
      obtain ⟨m, hm, heq⟩ := (mem_boundaryNodes hj).mp hboundary
      cases heq
      exact hentry hm
    rw [hstart]
    exact Value.undef_le _
  · obtain ⟨l, hl, -, rfl⟩ := call_of_target hj he hgoal
    have hsame : (interAnalysis p g).Le ((interAnalysis p g).transfer l.1 f)
        ((interAnalysis p g).transfer l.1 h) := by
      rwa [transfer_of_linked hl, transfer_of_linked hl]
    exact hsame
  · obtain ⟨l, hl, hc, rfl⟩ := call_of_target hj he hgoal
    have hout := (hgives _ (hj.linked_mem hl)).2
    rw [hsolve] at hout
    cases hcarried.symm.trans hout
    exact bindArgs_le_passed hl hc
      (fun v => Value.le_iff_meet.mpr (Fact.meet_eq_right_iff.mp hle v)) v

/-- Nothing that a linked call passes is missed. -/
theorem passed_le_ins_entry (hint : p.holdsInt v) :
    passed p g outs k v ≤ (ins (.entry k)).get v := by
  refine passed_le_iff.mpr fun l hl hk arg harg => ?_
  have htarget : ∀ m ∈ calls.entries, (Icfg.enter l.1 k).target ≠ .entry m := by
    rintro m hm heq
    cases heq
    exact hentry hm
  have hle := Fact.meet_eq_right_iff.mp
    (carry_le_ins hj hcalls hgives (hj.mem_edges.mpr (.enter hl hk)) htarget) v
  have hbound : (bindArgs p (Icfg.enter l.1 k) (outs l.1)).get v = (outs l.1).get arg := by
    rw [get_bindArgs, if_pos hint, harg]
    rfl
  exact hbound ▸ Value.le_iff_meet.mpr hle

end Solution

/-- Facts never leak across methods. Over every call graph that is found, the facts at a node map
only int-holding variables of its method that are parameters or defined in it. At the entry of a
method that is no entry method only parameters are mapped, each to at most the meet of what is known
of the arguments at the linked calls, and an int-holding one to no less. -/
theorem solveIcfg_local (hp : p.Accepted) (hparams : p.OwnsParams)
    (hcalls : CallGraph.Found p calls) :
    ∃ g facts ins outs, (Icfg.build p calls).result = .ok g ∧
      (solveIcfg p g).result = .ok facts ∧ facts.Gives g.graph ins outs ∧
      (∀ n ∈ g.graph.nodes, (ins n).StaysIn p n.method ∧ (outs n).StaysIn p n.method) ∧
      ∀ k, .entry k ∈ g.graph.nodes → k ∉ calls.entries →
        outs (.entry k) = ins (.entry k) ∧
        ∀ v, ((ins (.entry k)).get v ≠ .undef → v ∈ paramsOf p k) ∧
          (ins (.entry k)).get v ≤ passed p g outs k v ∧
          (p.holdsInt v → passed p g outs k v ≤ (ins (.entry k)).get v) := by
  obtain ⟨g, hg⟩ := Icfg.build_total hcalls
  have hj := Icfg.build_joins hg
  have hclosed := hcalls.closed
  have hrange : p.ParamsInRange := fun m b hb v hv => (hparams m b hb v hv).lt
  have hgives := Dataflow.solve_gives (laws_inter (p := p) hj) (hj.closed hclosed)
  refine ⟨g, _, _, _, hg, solveIcfg_eq hrange g, hgives, fun n hn => ?_, fun k hk hentry => ?_⟩
  · obtain ⟨hin, hout⟩ := local_facts hj hclosed hgives hp hparams hn
    exact ⟨hin.1, hout.1⟩
  · obtain ⟨hin, -⟩ := local_facts hj hclosed hgives hp hparams hk
    exact ⟨outs_entry hj hclosed hgives hk, fun v => ⟨hin.2 rfl v,
      ins_entry_le_passed hj hclosed hgives hentry hk v,
      passed_le_ins_entry hj hclosed hgives hentry⟩⟩

/-- `x = f(n); return x`, with the parameter `n`. -/
def again : Body where
  this := none
  params := [⟨0⟩]
  stmts := #[.invoke (some ⟨1⟩) ⟨.static, ⟨⟨0⟩, "int f(int)"⟩, none, [⟨0⟩]⟩, .ret (some ⟨1⟩)]

/-- `a = 7; b = f(a); return`. -/
def first : Body where
  this := none
  params := []
  stmts := #[.assign ⟨2⟩ (.int 7), .invoke (some ⟨3⟩) ⟨.static, ⟨⟨0⟩, "int f(int)"⟩, none, [⟨2⟩]⟩,
    .ret none]

/-- `f` is called by itself and by `main`. -/
def againBuilder : Builder where
  classes := #[⟨"C", none, [], false, false, [("int f(int)", ⟨0⟩), ("void main()", ⟨1⟩)], []⟩]
  fields := #[]
  methods := #[⟨"int f(int)", ⟨0⟩, true, false, some again⟩,
    ⟨"void main()", ⟨0⟩, true, false, some first⟩]
  vars := #[⟨"n", .int, ⟨0⟩⟩, ⟨"x", .int, ⟨0⟩⟩, ⟨"a", .int, ⟨1⟩⟩, ⟨"b", .int, ⟨1⟩⟩]
  entry := some ⟨1⟩
  root := none

theorem accepted_again : againBuilder.program.Accepted := by
  have hf := (Builder.Built.empty.addClass "C" none).addMethod
    (rfl : Builder.addMethod _ ⟨0⟩ "int f(int)" true = .ok (_, _))
  have hmain := hf.addMethod (rfl : Builder.addMethod _ ⟨0⟩ "void main()" true = .ok (_, _))
  have hvars := (((hmain.addVar ⟨0⟩ "n" .int).addVar ⟨0⟩ "x" .int).addVar ⟨1⟩ "a" .int).addVar
    ⟨1⟩ "b" .int
  have hagain := hvars.setBody (rfl : Builder.setBody _ ⟨0⟩ again = .ok _)
  have hfirst := hagain.setBody (rfl : Builder.setBody _ ⟨1⟩ first = .ok _)
  exact ⟨againBuilder, hfirst.setEntry ⟨1⟩, rfl⟩

theorem ownsParams_again : againBuilder.program.OwnsParams := by
  rintro ⟨_ | _ | i⟩ b hb v hv <;> cases hb
  · rw [List.mem_singleton.mp hv]
    exact ⟨_, rfl, rfl⟩
  · cases hv

def againCalls : CallGraph where
  entries := [⟨1⟩]
  reachable := #[⟨1⟩, ⟨0⟩]
  edges := #[⟨.static, ⟨⟨1⟩, 1⟩, ⟨0⟩⟩, ⟨.static, ⟨⟨0⟩, 0⟩, ⟨0⟩⟩]

theorem found_again : CallGraph.Found againBuilder.program againCalls := by
  have hbuild : (ClassHierarchy.build againBuilder.program ⟨1⟩).result = .ok againCalls := by
    decide +kernel
  exact .hierarchy hbuild

/-- Behind its call, `main` knows of no variable of `f`, and of `n` is known what the two calls of `f`
pass. -/
theorem solveIcfg_local_again : ∃ g facts ins outs,
    (Icfg.build againBuilder.program againCalls).result = .ok g ∧
    (solveIcfg againBuilder.program g).result = .ok facts ∧ facts.Gives g.graph ins outs ∧
    (ins (.stmt ⟨1⟩ 2)).StaysIn againBuilder.program ⟨1⟩ ∧
    (ins (.entry ⟨0⟩)).get ⟨0⟩ = passed againBuilder.program g outs ⟨0⟩ ⟨0⟩ := by
  obtain ⟨g, facts, ins, outs, hg, hfacts, hgives, hlocal, hentry⟩ :=
    solveIcfg_local accepted_again ownsParams_again found_again
  have hj := Icfg.build_joins hg
  have hmain : Node.stmt ⟨1⟩ 2 ∈ g.graph.nodes :=
    (hj.nodes _).mpr ⟨⟨1⟩, first, ⟨by simp [againCalls], rfl⟩, by decide⟩
  have hf : Node.entry ⟨0⟩ ∈ g.graph.nodes :=
    (hj.nodes _).mpr ⟨⟨0⟩, again, ⟨by simp [againCalls], rfl⟩, by decide⟩
  obtain ⟨-, hle, hge⟩ := (hentry ⟨0⟩ hf (by decide)).2 ⟨0⟩
  exact ⟨g, facts, ins, outs, hg, hfacts, hgives, (hlocal _ hmain).1,
    le_antisymm hle (hge (by decide))⟩

end Constant
end ProgramAnalysis
