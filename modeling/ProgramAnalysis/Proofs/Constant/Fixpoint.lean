import ProgramAnalysis.Constant.Intra
import ProgramAnalysis.Proofs.Constant.Lattice
import ProgramAnalysis.Proofs.Dataflow.Cfg
import ProgramAnalysis.Proofs.Traced

/-! Constant propagation over the graph of a body ends in a fixed solution. Facts stay within the
int-holding variables of the program, each of which rises twice at most. -/
namespace ProgramAnalysis

variable {p : Program} {m : MethodId} {b : Body}

theorem Program.mem_varIds {v : VarId} : v ∈ p.varIds ↔ v.index < p.vars.size := by
  unfold Program.varIds
  constructor
  · intro h
    obtain ⟨i, hi, rfl⟩ := List.mem_map.mp h
    exact List.mem_range.mp hi
  · intro h
    exact List.mem_map.mpr ⟨v.index, List.mem_range.mpr h, rfl⟩

theorem Program.lt_of_holdsInt {v : VarId} (h : p.holdsInt v) : v.index < p.vars.size := by
  unfold Program.holdsInt Program.var? at h
  obtain ⟨d, hd, _⟩ := (Option.any_eq_true _ _).mp h
  exact (Array.getElem?_eq_some_iff.mp hd).1

theorem Program.checkVars_ok {vs : List VarId} (h : ∀ v ∈ vs, v.index < p.vars.size) :
    p.checkVars vs = .ok () := by
  refine forM_ok fun v hv => ?_
  have hlt : v.index < p.vars.size := h v hv
  have hvar : p.var? v = some p.vars[v.index] := Array.getElem?_eq_getElem hlt
  exact bind_ok_iff.mpr ⟨_, orDangling_eq_ok_iff.mpr hvar, rfl⟩

namespace Fact

/-- The fact says nothing of variables that hold no int, or do not exist. -/
def Within (p : Program) (f : Fact) : Prop := ∀ v, f.get v ≠ .undef → p.holdsInt v

def rank (p : Program) (f : Fact) : Nat := total (p.varIds.map fun v => (f.get v).rank)

variable {f g : Fact}

theorem within_empty : Within p empty := fun _ h => absurd rfl h

theorem Within.set (hf : f.Within p) {v : VarId} (hv : p.holdsInt v) (x : Value) :
    (f.set v x).Within p := by
  intro w hw
  rw [get_set] at hw
  split at hw
  · next h => exact h ▸ hv
  · exact hf w hw

theorem Within.meet (hf : f.Within p) (hg : g.Within p) : (f.meet g).Within p :=
  fun v hv => (mapped_of_meet hv).elim (hf v) (hg v)

theorem rank_lt (hf : f.Within p) (hg : g.Within p) (hle : f.meet g = g) (hne : f ≠ g) :
    f.rank p < g.rank p := by
  have hvar : ∀ v, (f.get v).meet (g.get v) = g.get v := fun v => by rw [← get_meet, hle]
  have hmono : ∀ v ∈ p.varIds, (f.get v).rank ≤ (g.get v).rank := by
    intro v _
    by_cases h : f.get v = g.get v
    · rw [h]
    · exact Nat.le_of_lt (Value.rank_lt (hvar v) h)
  refine total_lt hmono ?_
  by_contra hnone
  refine hne (ext fun v => ?_)
  by_contra hv
  have hlt := Value.rank_lt (hvar v) hv
  refine hnone ⟨v, Program.mem_varIds.mpr (p.lt_of_holdsInt ?_), hlt⟩
  by_cases hg' : g.get v = .undef
  · refine hf v fun h => hv (h.trans hg'.symm)
  · exact hg v hg'

theorem rank_le (f : Fact) : f.rank p ≤ 2 * p.vars.size := by
  have hlength : p.varIds.length = p.vars.size := by simp [Program.varIds]
  have hle : f.rank p ≤ p.varIds.length * 2 := total_le_length_mul fun v _ => (f.get v).rank_le
  rw [hlength, Nat.mul_comm] at hle
  exact hle

end Fact

namespace Constant

theorem within_transfer {f : Fact} (n : Node) (hf : f.Within p) : (transfer p n f).Within p := by
  unfold transfer
  split
  · unfold transferStmt
    split
    · split
      · next h => exact hf.set h _
      · exact hf
    · split
      · next h => exact hf.set h _
      · exact hf
    · exact hf
  · exact hf

theorem get_boundary (n : Node) (v : VarId) :
    (boundary p n).get v = if v ∈ paramsOf p n.method ∧ p.holdsInt v then .nac else .undef := by
  unfold boundary
  rw [Fact.get_ofList_const]
  simp [List.mem_filter]

theorem within_boundary (n : Node) : (boundary p n).Within p := by
  intro v hv
  rw [get_boundary] at hv
  split at hv
  · next h => exact h.2
  · exact absurd rfl hv

/-- Constants are solved for whatever transfer and edges keep to the int-holding variables. -/
theorem laws_of {g : FlowGraph} {a : Analysis Node EdgeLabel Fact} (hmeet : a.meet = Fact.meet)
    (hinitial : a.initial = .empty) (hboundary : a.boundary = boundary p)
    (hheight : a.height = height p)
    (htransfer : ∀ n f, f.Within p → (a.transfer n f).Within p)
    (hcarry : ∀ e f, f.Within p → (a.carry e f).Within p)
    (hidle : ∀ n ∈ Dataflow.boundaryNodes g a, ∀ f, a.transfer n f = f) :
    Dataflow.Laws g a (Fact.Within p) (Fact.rank p) where
  meet_self := hmeet ▸ Fact.meet_self
  meet_comm := hmeet ▸ Fact.meet_comm
  meet_assoc := hmeet ▸ Fact.meet_assoc
  initial_meet := by
    rw [hmeet, hinitial]
    exact Fact.empty_meet
  transfer_boundary := hidle
  ok_initial := hinitial ▸ Fact.within_empty
  ok_boundary := hboundary ▸ within_boundary
  ok_meet := by
    rw [hmeet]
    exact fun _ _ => Fact.Within.meet
  ok_transfer := htransfer
  ok_carry := hcarry
  rank_lt := by
    unfold Analysis.Le
    rw [hmeet]
    exact fun _ _ => Fact.rank_lt
  rank_le f _ := hheight ▸ f.rank_le

theorem laws (p : Program) (m : MethodId) (b : Body) :
    Dataflow.Laws (Cfg.ofBody m b).graph (analysis p) (Fact.Within p) (Fact.rank p) := by
  refine laws_of rfl rfl rfl rfl (fun n _ => within_transfer n) (fun _ _ hf => hf) ?_
  intro n hn f
  rw [List.mem_singleton.mp hn]
  rfl

theorem fixed (p : Program) (m : MethodId) (b : Body) :
    Dataflow.Fixed (Cfg.ofBody m b).graph (analysis p) (Fact.Within p)
      (Dataflow.solve (Cfg.ofBody m b).graph (analysis p)).ins
      (Dataflow.solve (Cfg.ofBody m b).graph (analysis p)).outs :=
  Dataflow.solve_fixed (laws p m b) (Cfg.closed_ofBody m b)

theorem startFact_entry : Dataflow.startFact (Cfg.ofBody m b).graph (analysis p) (.entry m) =
    boundary p (.entry m) :=
  if_pos (List.mem_singleton.mpr rfl)

theorem paramsOf_eq (hb : p.body? m = some b) : paramsOf p m = b.params := by
  have hbody : (p.method? m).bind (·.body) = some b := hb
  unfold paramsOf
  rw [hbody]

theorem analyze_eq (hb : p.body? m = some b) (hparams : ∀ v ∈ b.params, v.index < p.vars.size) :
    (analyze p m).result = .ok (Cfg.ofBody m b,
      Dataflow.solve (Cfg.ofBody m b).graph (analysis p)) := by
  have hcheck : p.checkVars (paramsOf p (Cfg.ofBody m b).method) = .ok () := by
    refine Program.checkVars_ok ?_
    show ∀ v ∈ paramsOf p m, _
    rw [paramsOf_eq hb]
    exact hparams
  have hsolve : (solveCfg p (Cfg.ofBody m b)).result =
      .ok (Dataflow.solve (Cfg.ofBody m b).graph (analysis p)) := by
    unfold solveCfg
    rw [Traced.result_bind, Traced.result_lift, hcheck]
    rfl
  unfold analyze
  rw [Traced.result_bind, Traced.result_lift, Cfg.build_eq hb]
  show (solveCfg p (Cfg.ofBody m b) >>= fun facts => pure (Cfg.ofBody m b, facts)).result = _
  rw [Traced.result_bind, hsolve]
  rfl

/-- The analysis does not fail, and its facts settle every node. -/
theorem analyze_fixed (hb : p.body? m = some b) (hparams : ∀ v ∈ b.params, v.index < p.vars.size) :
    Traced.Returns (analyze p m) fun (c, facts) => c = Cfg.ofBody m b ∧
      Dataflow.Fixed c.graph (analysis p) (Fact.Within p) facts.ins facts.outs :=
  ⟨_, analyze_eq hb hparams, rfl, fixed p m b⟩

end Constant
end ProgramAnalysis
