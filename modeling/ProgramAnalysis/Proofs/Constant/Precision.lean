import ProgramAnalysis.Proofs.Constant.Calls

/-! Constants across calls against constants within methods. Without division, what a method is known
to do by itself bounds what it is known to do under its callers, and whatever value the method
computes by itself, not having met `nac` on the way, it computes under its callers too. So the
callers only turn `nac` into something better, and an `undef` or a constant stays what it is. -/
namespace ProgramAnalysis

namespace Value

variable {x x' y y' : Value} {op : BinOp}

theorem le_antisymm (hxy : x.meet y = y) (hyx : y.meet x = x) : x = y := by
  rw [← hyx, meet_comm, hxy]

theorem meet_mono (hx : x.meet x' = x') (hy : y.meet y' = y') :
    (x.meet y).meet (x'.meet y') = x'.meet y' :=
  calc (x.meet y).meet (x'.meet y') = (x.meet x').meet (y.meet y') := by
        rw [meet_assoc, meet_assoc, ← meet_assoc y, meet_comm y, meet_assoc x']
    _ = x'.meet y' := by rw [hx, hy]

/-- Without division, an operator has no value but `nac` once an operand is `nac`. -/
theorem evalBinary_nac (hop : op.isDivision = false) (h : x = .nac ∨ y = .nac) :
    evalBinary op x y = .nac := by
  unfold evalBinary
  rw [hop]
  rcases h with rfl | rfl
  · rfl
  · cases x <;> rfl

end Value

namespace Fact

variable {f g h : Fact}

theorem le_trans (hfg : f.meet g = g) (hgh : g.meet h = h) : f.meet h = h := by
  rw [← hgh, ← meet_assoc, hfg]

theorem erase_mono (h : f.meet g = g) (v : VarId) : (f.erase v).meet (g.erase v) = g.erase v := by
  refine meet_eq_right_iff.mpr fun w => ?_
  rw [get_erase, get_erase]
  split
  · rfl
  · exact meet_eq_right_iff.mp h w

/-- `g` says of each variable what `f` says, unless `f` says `nac`. -/
def RefinedBy (f g : Fact) : Prop := ∀ v, f.get v = .nac ∨ g.get v = f.get v

theorem RefinedBy.get_constant (h : f.RefinedBy g) {v : VarId} {n : Int32}
    (hv : f.get v = .constant n) : g.get v = .constant n := by
  rcases h v with hnac | heq
  · rw [hv] at hnac
    cases hnac
  · rw [heq, hv]

/-- `g` and `h` say the same of each variable, unless `f` says `nac`. -/
def AgreeUnder (f g h : Fact) : Prop := ∀ v, f.get v = .nac ∨ g.get v = h.get v

theorem AgreeUnder.set {x y z : Value} (ha : f.AgreeUnder g h) (hx : x = .nac ∨ y = z)
    (v : VarId) : (f.set v x).AgreeUnder (g.set v y) (h.set v z) := by
  intro w
  rw [get_set, get_set, get_set]
  split
  · exact hx
  · exact ha w

/-- `g`, but `nac` wherever `f` is. -/
def raised (f g : Fact) : Fact :=
  g.meet (ofList (((f.toList.filter (·.2.isNac)).map (·.1)).map (·, .nac)))

theorem get_raised (f g : Fact) (v : VarId) :
    (f.raised g).get v = if f.get v = .nac then .nac else g.get v := by
  have hmem : v ∈ (f.toList.filter (·.2.isNac)).map (·.1) ↔ f.get v = .nac := by
    rw [List.mem_map]
    constructor
    · rintro ⟨⟨w, x⟩, he, rfl⟩
      obtain ⟨hx, hnac⟩ := List.mem_filter.mp he
      rw [(mem_toList.mp hx).1]
      cases x with
      | nac => rfl
      | undef | constant n => cases hnac
    · intro hv
      exact ⟨(v, .nac), List.mem_filter.mpr ⟨mem_toList.mpr ⟨hv, nofun⟩, rfl⟩, rfl⟩
  rw [raised, get_meet, get_ofList_const]
  by_cases hv : f.get v = .nac
  · rw [if_pos (hmem.mpr hv), if_pos hv, Value.meet_nac]
  · rw [if_neg (mt hmem.mp hv), if_neg hv, Value.meet_undef]

theorem agreeUnder_raised (f g : Fact) : f.AgreeUnder (f.raised g) g := by
  intro v
  rw [get_raised]
  by_cases hv : f.get v = .nac
  · exact .inl hv
  · exact .inr (if_neg hv)

/-- Below `f` and above what `f` would make of `g`: then `g` says what `f` says, but for `nac`. -/
theorem refinedBy_of_le (hle : g.meet f = f) (hge : f.meet (f.raised g) = f.raised g) :
    f.RefinedBy g := by
  intro v
  by_cases hv : f.get v = .nac
  · exact .inl hv
  · have hge := meet_eq_right_iff.mp hge v
    rw [get_raised, if_neg hv] at hge
    exact .inr (Value.le_antisymm (meet_eq_right_iff.mp hle v) hge)

end Fact

/-- No variable that holds an int is assigned a quotient or a remainder anywhere. -/
def Program.NoDivision (p : Program) : Prop := ∀ m b, p.body? m = some b → p.DivisionFree b

theorem Program.NoDivision.at {p : Program} (h : p.NoDivision) (n : Node) :
    p.DivisionFreeAt n := by
  intro x c hs
  obtain ⟨m, point⟩ := n
  cases point with
  | entry | exit => cases hs
  | stmt i =>
    have hs : p.stmtAt? (.stmt m i) = some (.assign x (.binary c)) := hs
    rw [stmtAt?_stmt, Option.bind_eq_some_iff] at hs
    obtain ⟨b, hb, hs⟩ := hs
    exact h m b hb i x c hs

namespace Constant

variable {p : Program} {calls : CallGraph} {g : Icfg} {m : MethodId} {b : Body} {n : Node}
  {e : FlowEdge} {f f' f'' : Fact} {x v : VarId} {result : Option VarId} {call : Call}

/-! ### Statements -/

/-- What a statement computes from values other than `nac` is the same from facts that agree on
these. -/
theorem agreeUnder_transfer (hdivision : p.DivisionFreeAt n) (h : f.AgreeUnder f' f'') :
    (transfer p n f).AgreeUnder (transfer p n f') (transfer p n f'') := by
  have hevaluate : ∀ {x e}, p.stmtAt? n = some (.assign x e) → p.holdsInt x →
      evaluate e f = .nac ∨ evaluate e f' = evaluate e f'' := by
    intro x e hs hx
    cases e with
    | var v => exact h v
    | int k => exact .inr rfl
    | binary c =>
      have hop := hdivision x c hs hx
      rcases h c.lhs with hl | hl
      · exact .inl (Value.evalBinary_nac hop (.inl hl))
      · rcases h c.rhs with hr | hr
        · exact .inl (Value.evalBinary_nac hop (.inr hr))
        · refine .inr ?_
          show Value.evalBinary c.op (f'.get c.lhs) (f'.get c.rhs) =
            Value.evalBinary c.op (f''.get c.lhs) (f''.get c.rhs)
          rw [hl, hr]
    | null | neg v | cast ty v | instanceOf v ty | new ty | field base k | element base i
    | length v => exact .inl rfl
  unfold transfer
  split
  · next s hs =>
    unfold transferStmt
    split
    · next x e =>
      split
      · next hx => exact h.set (hevaluate hs hx) x
      · exact h
    · next x c =>
      split
      · exact h.set (.inl rfl) x
      · exact h
    · exact h
  · exact h

/-- The way past a call that is linked brings no more than the way over one that is not. -/
theorem forgetResult_le_transfer (hs : p.stmtAt? n = some (.invoke result call)) (f : Fact) :
    (forgetResult p n f).meet (transfer p n f) = transfer p n f := by
  refine Fact.meet_eq_right_iff.mpr fun v => ?_
  rw [get_forgetResult hs, get_transfer_invoke hs]
  by_cases hv : result = some v
  · rw [if_pos hv, Value.undef_meet]
  · rw [if_neg hv, if_neg fun h => hv h.1, Value.meet_self]

/-! ### Edges -/

theorem returned_mono (m : MethodId) (h : f.meet f' = f') :
    (returned p m f).meet (returned p m f') = returned p m f' := by
  have hfold : ∀ (vs : List VarId) (x y : Value), x.meet y = y →
      (vs.foldl (fun acc v => acc.meet (f.get v)) x).meet
        (vs.foldl (fun acc v => acc.meet (f'.get v)) y) =
          vs.foldl (fun acc v => acc.meet (f'.get v)) y := by
    intro vs
    induction vs with
    | nil => exact fun _ _ hxy => hxy
    | cons v vs ih =>
      exact fun x y hxy => ih _ _ (Value.meet_mono hxy (Fact.meet_eq_right_iff.mp h v))
  unfold returned
  split
  · exact hfold _ _ _ rfl
  · rfl

theorem bindArgs_mono (e : FlowEdge) (h : f.meet f' = f') :
    (bindArgs p e f).meet (bindArgs p e f') = bindArgs p e f' := by
  have hfold : ∀ (xs : List (VarId × VarId)) (b b' : Fact), b.meet b' = b' →
      (xs.foldl (fun b x => if p.holdsInt x.1 then b.set x.1 (f.get x.2) else b) b).meet
        (xs.foldl (fun b x => if p.holdsInt x.1 then b.set x.1 (f'.get x.2) else b) b') =
          xs.foldl (fun b x => if p.holdsInt x.1 then b.set x.1 (f'.get x.2) else b) b' := by
    intro xs
    induction xs with
    | nil => exact fun _ _ hb => hb
    | cons x xs ih =>
      intro b b' hb
      refine ih _ _ ?_
      dsimp only
      split
      · exact Fact.set_mono hb (Fact.meet_eq_right_iff.mp h x.2) x.1
      · exact hb
  exact hfold _ _ _ rfl

theorem carryEdge_mono (e : FlowEdge) (h : f.meet f' = f') :
    (carryEdge p e f).meet (carryEdge p e f') = carryEdge p e f' := by
  unfold carryEdge
  split
  · exact h
  · unfold forgetResult
    split
    · exact Fact.erase_mono h _
    · exact h
  · exact bindArgs_mono e h
  · unfold bindResult
    split
    · split
      · exact Fact.set_mono rfl (returned_mono _ h) _
      · rfl
    · rfl

/-- Whatever is bound to parameters, they start out as `nac` within the method. -/
theorem bindArgs_le_boundary (e : FlowEdge) (f : Fact) :
    (bindArgs p e f).meet (boundary p e.target) = boundary p e.target := by
  refine Fact.meet_eq_right_iff.mpr fun v => ?_
  rw [get_boundary]
  by_cases hv : v ∈ paramsOf p e.target.method ∧ p.holdsInt v
  · rw [if_pos hv, Value.meet_nac]
  · have hundef : (bindArgs p e f).get v = .undef := not_not.mp (mt param_of_bindArgs hv)
    rw [hundef, Value.undef_meet]

/-! ### Facts within methods -/

/-- What the analysis of a node's method by itself has gathered at the node. -/
def ownIns (p : Program) (n : Node) : Fact :=
  match p.body? n.method with
  | some b => Dataflow.factAt (analysis p)
      (Dataflow.solve (Cfg.ofBody n.method b).graph (analysis p)).ins n
  | none => .empty

theorem ownIns_eq (hb : p.body? m = some b) (hn : n ∈ (Cfg.ofBody m b).graph.nodes) :
    ownIns p n =
      Dataflow.factAt (analysis p) (Dataflow.solve (Cfg.ofBody m b).graph (analysis p)).ins n := by
  obtain rfl := Cfg.method_of_mem_nodes hn
  unfold ownIns
  rw [hb]

theorem own_gives (hb : p.body? m = some b) :
    (Dataflow.solve (Cfg.ofBody m b).graph (analysis p)).Gives (Cfg.ofBody m b).graph (ownIns p)
      fun n => transfer p n (ownIns p n) := by
  intro n hn
  obtain ⟨f, hf, _, _, hf'⟩ := (fixed p m b).defined n hn
  obtain rfl : ownIns p n = f := (ownIns_eq hb hn).trans (Dataflow.factAt_eq hf)
  exact ⟨hf, hf'⟩

theorem own_entry (hb : p.body? m = some b) :
    (boundary p (.entry m)).meet (ownIns p (.entry m)) = ownIns p (.entry m) := by
  have hn : Node.entry m ∈ (Cfg.ofBody m b).graph.nodes := Cfg.mem_nodes.mpr (.inl rfl)
  obtain ⟨f, hf, _, hle, _⟩ := (fixed p m b).defined _ hn
  rw [startFact_entry] at hle
  rw [ownIns_eq hb hn, Dataflow.factAt_eq hf]
  exact hle

theorem own_edge (hb : p.body? m = some b) (he : e ∈ (Cfg.ofBody m b).graph.edges) :
    (transfer p e.source (ownIns p e.source)).meet (ownIns p e.target) = ownIns p e.target := by
  obtain ⟨hsource, htarget⟩ := Cfg.closed_ofBody m b e he
  exact (fixed p m b).fed e he (heeded he) _ _ (own_gives hb _ hsource).2 (own_gives hb _ htarget).1

/-- Whatever a callee returns, nothing is known of the result of a call within the method. -/
theorem bindResult_le_own (hb : p.body? m = some b) (he : e ∈ (Cfg.ofBody m b).graph.edges)
    (hs : p.stmtAt? e.source = some (.invoke result call)) (c : MethodId) (f : Fact) :
    (bindResult p (Icfg.leave e.source e.target c) f).meet (ownIns p e.target) =
      ownIns p e.target := by
  refine Fact.meet_eq_right_iff.mpr fun v => ?_
  have hle := Fact.meet_eq_right_iff.mp (own_edge hb he) v
  rw [get_transfer_invoke hs] at hle
  rw [get_bindResult hs]
  by_cases hv : result = some v ∧ p.holdsInt v
  · rw [if_pos hv, Value.nac_meet] at hle
    rw [← hle, Value.meet_nac]
  · rw [if_neg hv, Value.undef_meet]

/-! ### Callers only refine them -/

section Callers

variable {ins outs : Node → Fact} (hj : Icfg.Joins p calls g) (hcalls : calls.Closed)

theorem monotone_inter (hdivision : p.NoDivision) :
    Dataflow.Monotone g.graph (interAnalysis p g) where
  carry e _ _ _ h := carryEdge_mono e h
  transfer n _ f f' h := by
    show Fact.meet (if g.isLinked n then f else _) (if g.isLinked n then f' else _) =
      if g.isLinked n then f' else _
    split
    · exact h
    · exact transfer_mono (hdivision.at n) h

include hj in
/-- What a method is known to do by itself bounds what it is known to do under its callers. -/
theorem bounds_inter : Dataflow.Bounds g.graph (interAnalysis p g) (ownIns p)
    fun n => (interAnalysis p g).transfer n (ownIns p n) where
  start n hn := by
    unfold Dataflow.startFact
    split
    · next hboundary =>
      obtain ⟨m, _, rfl⟩ := (mem_boundaryNodes hj).mp hboundary
      obtain ⟨m', b, hm, hn⟩ := (hj.nodes _).mp hn
      obtain rfl : m = m' := Cfg.method_of_mem_nodes hn
      exact own_entry hm.2
    · exact Fact.empty_meet _
  edge e he := by
    show (carryEdge p e ((interAnalysis p g).transfer e.source (ownIns p e.source))).meet
      (ownIns p e.target) = ownIns p e.target
    cases hj.mem_edges.mp he with
    | enter hl hc =>
      obtain ⟨_, _, _, _, _, _, _, _, hfound⟩ := (hj.linked _).mp hl
      obtain ⟨-, b, hb⟩ := (Icfg.mem_withBody hfound).mp hc
      exact Fact.le_trans (bindArgs_le_boundary _ _) (own_entry hb)
    | within hm he' hlookup =>
      rw [carryEdge_within he', transfer_of_lookup_none hlookup]
      exact own_edge hm.2 he'
    | @past _ _ e' _ hm he' hlookup =>
      obtain ⟨result, call, hs⟩ := hj.stmtAt?_of_lookup hlookup
      show (carryEdge p (Icfg.past e'.source e'.target) ((interAnalysis p g).transfer e'.source
        (ownIns p e'.source))).meet (ownIns p e'.target) = ownIns p e'.target
      rw [transfer_of_lookup_some hlookup]
      exact Fact.le_trans (forgetResult_le_transfer hs _) (own_edge hm.2 he')
    | leave hm he' hlookup hc =>
      obtain ⟨result, call, hs⟩ := hj.stmtAt?_of_lookup hlookup
      exact bindResult_le_own hm.2 he' hs _ _
  transfer n _ := Fact.meet_self _

variable (hdivision : p.NoDivision)
  (hgives : (Dataflow.solve g.graph (interAnalysis p g)).Gives g.graph ins outs)
include hj hcalls hdivision hgives

/-- What a method is known to do under its callers lies below what it is known to do by itself. -/
theorem le_own (hn : n ∈ g.graph.nodes) : (ins n).meet (ownIns p n) = ownIns p n :=
  (Dataflow.final_below (laws_inter hj) (hj.closed hcalls) (monotone_inter hdivision)
    (bounds_inter hj)).gathered n hn _ (hgives n hn).1

variable (hm : Icfg.Includes p calls m b)
include hm

omit hdivision in
/-- An edge within the method brings what the transfer leaves, but for the result of a call that is
linked. -/
theorem transfer_le_ins (he : e ∈ (Cfg.ofBody m b).graph.edges)
    (hv : (transfer p e.source (ownIns p e.source)).get v ≠ .nac) :
    ((transfer p e.source (ins e.source)).get v).meet ((ins e.target).get v) =
      (ins e.target).get v := by
  cases hlookup : g.linked.lookup e.source with
  | none =>
    exact Fact.meet_eq_right_iff.mp (transfer_le hj hcalls hgives hm he hlookup) v
  | some found =>
    have hle := Fact.meet_eq_right_iff.mp (forgetResult_le hj hcalls hgives hm he hlookup) v
    obtain ⟨result, call, hs⟩ := hj.stmtAt?_of_lookup hlookup
    rw [get_transfer_invoke hs] at hv ⊢
    have hcond : ¬(result = some v ∧ p.holdsInt v) := fun h => hv (if_pos h)
    rw [if_neg hcond]
    rw [get_forgetResult hs] at hle
    by_cases hresult : result = some v
    · have hundef : (ins e.source).get v = .undef := by
        by_contra hne
        have hsource := (hj.nodes _).mpr ⟨m, b, hm, (Cfg.closed_ofBody m b e he).1⟩
        exact hcond ⟨hresult, within_ins hj hcalls hgives hsource v hne⟩
      rw [hundef, Value.undef_meet]
    · rwa [if_neg hresult] at hle

/-- `nac` wherever it is within the method, and elsewhere as under its callers: that bounds the
method by itself. -/
theorem bounds_own : Dataflow.Bounds (Cfg.ofBody m b).graph (analysis p)
    (fun n => (ownIns p n).raised (ins n))
    fun n => transfer p n ((ownIns p n).raised (ins n)) where
  start n hn := by
    unfold Dataflow.startFact
    split
    · next hboundary =>
      have hentry : n = .entry m := List.mem_singleton.mp hboundary
      subst hentry
      refine Fact.meet_eq_right_iff.mpr fun v => ?_
      have hown := Fact.meet_eq_right_iff.mp (own_entry hm.2) v
      show ((boundary p (.entry m)).get v).meet _ = _
      rw [get_boundary] at hown ⊢
      by_cases hparam : v ∈ paramsOf p (Node.entry m).method ∧ p.holdsInt v
      · rw [if_pos hparam, Value.nac_meet] at hown
        rw [if_pos hparam, Fact.get_raised, if_pos hown.symm, Value.meet_nac]
      · rw [if_neg hparam, Value.undef_meet]
    · exact Fact.empty_meet _
  edge e he := by
    show (transfer p e.source ((ownIns p e.source).raised (ins e.source))).meet
      ((ownIns p e.target).raised (ins e.target)) = (ownIns p e.target).raised (ins e.target)
    refine Fact.meet_eq_right_iff.mpr fun v => ?_
    have hown := Fact.meet_eq_right_iff.mp (own_edge hm.2 he) v
    rw [Fact.get_raised]
    by_cases hnac : (ownIns p e.target).get v = .nac
    · rw [if_pos hnac, Value.meet_nac]
    · have hv : (transfer p e.source (ownIns p e.source)).get v ≠ .nac := fun h => hnac (by
        rw [h, Value.nac_meet] at hown
        exact hown.symm)
      have hagree := agreeUnder_transfer (hdivision.at e.source)
        (Fact.agreeUnder_raised (ownIns p e.source) (ins e.source)) v
      rw [if_neg hnac, hagree.resolve_left hv]
      exact transfer_le_ins hj hcalls hgives hm he hv
  transfer n _ := Fact.meet_self _

theorem ins_refined (hn : n ∈ (Cfg.ofBody m b).graph.nodes) : (ownIns p n).RefinedBy (ins n) := by
  have hmem : n ∈ g.graph.nodes := (hj.nodes n).mpr ⟨m, b, hm, hn⟩
  have hbelow := Dataflow.final_below (laws p m b) (Cfg.closed_ofBody m b)
    (monotone hm.2 (hdivision m b hm.2)) (bounds_own hj hcalls hdivision hgives hm)
  exact Fact.refinedBy_of_le (le_own hj hcalls hdivision hgives hmem)
    (hbelow.gathered n hn _ (own_gives hm.2 n hn).1)

theorem outs_refined (hn : n ∈ (Cfg.ofBody m b).graph.nodes) :
    (transfer p n (ownIns p n)).RefinedBy (outs n) := by
  have hrefined := ins_refined hj hcalls hdivision hgives hm hn
  have hout := outs_eq hj hcalls hgives ((hj.nodes n).mpr ⟨m, b, hm, hn⟩)
  intro v
  cases hlookup : g.linked.lookup n with
  | none =>
    rw [hout, transfer_of_lookup_none hlookup]
    have hagree : (ownIns p n).AgreeUnder (ins n) (ownIns p n) := hrefined
    exact agreeUnder_transfer (hdivision.at n) hagree v
  | some found =>
    obtain ⟨result, call, hs⟩ := hj.stmtAt?_of_lookup hlookup
    rw [hout, transfer_of_lookup_some hlookup, get_transfer_invoke hs]
    split
    · exact .inl rfl
    · exact hrefined v

end Callers

/-- At every node, the facts say what `own` says, but for `nac`. -/
structure Refines (g : FlowGraph) (own facts : Facts) : Prop where
  ins : ∀ n ∈ g.nodes, ∃ f f', own.ins.get? n = some f ∧ facts.ins.get? n = some f' ∧
    f.RefinedBy f'
  outs : ∀ n ∈ g.nodes, ∃ f f', own.outs.get? n = some f ∧ facts.outs.get? n = some f' ∧
    f.RefinedBy f'

/-- Without division, the facts across calls refine those within every method of the graph. -/
theorem refines (hj : Icfg.Joins p calls g) (hcalls : calls.Closed) (hdivision : p.NoDivision)
    (hm : Icfg.Includes p calls m b) : Refines (Cfg.ofBody m b).graph
      (Dataflow.solve (Cfg.ofBody m b).graph (analysis p))
      (Dataflow.solve g.graph (interAnalysis p g)) := by
  have hgives := Dataflow.solve_gives (laws_inter (p := p) hj) (hj.closed hcalls)
  refine ⟨fun n hn => ?_, fun n hn => ?_⟩
  · obtain ⟨hin, -⟩ := hgives n ((hj.nodes n).mpr ⟨m, b, hm, hn⟩)
    exact ⟨_, _, (own_gives hm.2 n hn).1, hin, ins_refined hj hcalls hdivision hgives hm hn⟩
  · obtain ⟨-, hout⟩ := hgives n ((hj.nodes n).mpr ⟨m, b, hm, hn⟩)
    exact ⟨_, _, (own_gives hm.2 n hn).2, hout, outs_refined hj hcalls hdivision hgives hm hn⟩

theorem noDivision_natives : natives.NoDivision := by
  rintro ⟨_ | _ | _ | i⟩ b hb j x c hs <;> cases hb
  all_goals
    have hmem := Array.mem_toList_iff.mpr (Array.mem_of_getElem? hs)
    simp [seven, caller] at hmem

end Constant
end ProgramAnalysis
