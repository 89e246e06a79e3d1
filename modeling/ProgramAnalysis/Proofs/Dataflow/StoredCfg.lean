import ProgramAnalysis.Dataflow.StoredCfg
import ProgramAnalysis.Proofs.Dataflow.Cfg

/-! The stored graph of a body: both maps list the edges of the body, each under its two ends, and
the edges out of a statement lead where control can go from it. Every jump of an accepted program
is to a statement, so that only what runs past the last one, and a return, goes to the exit. -/
namespace ProgramAnalysis

variable {p : Program} {m : MethodId} {b : Body} {i : Nat} {s : Stmt} {n k : Node}

namespace StoredCfg

variable {c : StoredCfg} {es : List FlowEdge}

/-! ### Both maps list the same edges -/

/-- What is stored while edges are added: each map has them by its own end, in their order. -/
structure Lists (c : StoredCfg) (m : MethodId) (nodes : List Node) (es : List FlowEdge) : Prop where
  method : c.method = m
  nodes : c.nodes = nodes
  edgesFrom : ∀ n, c.edgesFrom n = es.filter fun e => e.source = n
  edgesInto : ∀ n, c.edgesInto n = es.filter fun e => e.target = n

variable {nodes : List Node}

theorem edgesFrom_addEdge (c : StoredCfg) (source target : Node) (flow : Flow) (n : Node) :
    (c.addEdge source target flow).edgesFrom n =
      c.edgesFrom n ++ if source = n then [.within source target flow] else [] :=
  c.outgoing.getD_push source n (.within source target flow)

theorem edgesInto_addEdge (c : StoredCfg) (source target : Node) (flow : Flow) (n : Node) :
    (c.addEdge source target flow).edgesInto n =
      c.edgesInto n ++ if target = n then [.within source target flow] else [] :=
  c.incoming.getD_push target n (.within source target flow)

theorem Lists.addEdge (h : c.Lists m nodes es) (source target : Node) (flow : Flow) :
    (c.addEdge source target flow).Lists m nodes (es ++ [.within source target flow]) where
  method := h.method
  nodes := h.nodes
  edgesFrom n := by
    rw [edgesFrom_addEdge, h.edgesFrom, List.filter_append, List.filter_singleton]
    by_cases hn : source = n <;> simp [hn, Edge.within]
  edgesInto n := by
    rw [edgesInto_addEdge, h.edgesInto, List.filter_append, List.filter_singleton]
    by_cases hn : target = n <;> simp [hn, Edge.within]

theorem Lists.addCases (h : c.Lists m nodes es) (cases : List (Int32 × Nat)) (node : Node)
    (position : Nat → Node) :
    (cases.foldl (fun c (value, target) => c.addEdge node (position target) (.switchCase value))
      c).Lists m nodes
        (es ++ cases.map fun d => .within node (position d.2) (.switchCase d.1)) := by
  induction cases generalizing c es with
  | nil => simpa using h
  | cons d cases ih => simpa using ih (h.addEdge node (position d.2) (.switchCase d.1))

/-- A statement adds the edges out of it. -/
theorem Lists.addStmt (h : c.Lists m nodes es) (size i : Nat) (s : Stmt) :
    (c.addStmt size i s).Lists m nodes (es ++ Cfg.edgesOf m size i s) := by
  obtain rfl := h.method
  cases s with
  | goto t | assign x e | store l v | invoke r d | nop | ret v => exact h.addEdge _ _ _
  | branch d t =>
    have h₁ := h.addEdge (.stmt c.method i) (Cfg.nodeAt c.method size t) .ifTrue
    have h₂ := h₁.addEdge (.stmt c.method i) (Cfg.nodeAt c.method size (i + 1)) .ifFalse
    rw [List.append_assoc] at h₂
    exact h₂
  | switch v cases default =>
    have h₁ := h.addCases cases (.stmt c.method i) (Cfg.nodeAt c.method size)
    have h₂ := h₁.addEdge (.stmt c.method i) (Cfg.nodeAt c.method size default) .switchDefault
    rw [List.append_assoc] at h₂
    exact h₂

theorem Lists.addStmts (h : c.Lists m nodes es) (size : Nat) (stmts : List (Nat × Stmt)) :
    (stmts.foldl (fun c (i, s) => c.addStmt size i s) c).Lists m nodes
      (es ++ stmts.flatMap fun (i, s) => Cfg.edgesOf m size i s) := by
  induction stmts generalizing c es with
  | nil => simpa using h
  | cons x stmts ih => simpa using ih (h.addStmt size x.1 x.2)

theorem lists_ofBody (m : MethodId) (b : Body) :
    (ofBody m b).Lists m (Cfg.ofBody m b).graph.nodes (Cfg.ofBody m b).graph.edges := by
  have hstart : StoredCfg.Lists ⟨m, (Cfg.ofBody m b).graph.nodes, .empty, .empty⟩ m
      (Cfg.ofBody m b).graph.nodes [] := ⟨rfl, rfl, fun _ => rfl, fun _ => rfl⟩
  exact (hstart.addEdge (.entry m) (Cfg.nodeAt m b.size 0) .entry).addStmts b.size b.indexed

theorem build_eq (hb : p.body? m = some b) : StoredCfg.build p m = .ok (ofBody m b) := by
  unfold StoredCfg.build Program.requireBody
  rw [Program.getBody_eq (Program.lt_of_body? hb), hb]
  rfl

end StoredCfg

/-! ### Where control can go -/

/-- The node of the position after `i`; the exit comes after the last statement. -/
def Body.nodeAfter (m : MethodId) (b : Body) (i : Nat) : Node :=
  if i + 1 = b.size then .exit m else .stmt m (i + 1)

/-- The nodes that control can go to from a statement before `next`, and how. -/
def Stmt.successors (m : MethodId) (next : Node) : Stmt → List (Node × Flow)
  | .goto target => [(.stmt m target, .goto)]
  | .branch _ target => [(.stmt m target, .ifTrue), (next, .ifFalse)]
  | .switch _ cases default =>
    cases.map (fun c => (.stmt m c.2, .switchCase c.1)) ++ [(.stmt m default, .switchDefault)]
  | .ret _ => [(.exit m, .ret)]
  | .assign .. | .store .. | .invoke .. | .nop => [(next, .fallThrough)]

/-- The graph of a body: its nodes in order, edges only among them and the same ones in both maps,
and out of each node those to where control can go. -/
structure StoredCfg.Follows (c : StoredCfg) (m : MethodId) (b : Body) : Prop where
  nodes : c.nodes = .entry m :: (List.range b.size).map (.stmt m) ++ [.exit m]
  edgesFrom : ∀ n, ∀ e ∈ c.edgesFrom n, e.source = n ∧ n ∈ c.nodes ∧ e.target ∈ c.nodes
  edgesInto : ∀ n, ∀ e ∈ c.edgesInto n, e.target = n ∧ n ∈ c.nodes ∧ e.source ∈ c.nodes
  mirrored : ∀ n k, (c.edgesFrom n).filter (fun e => e.target = k) =
    (c.edgesInto k).filter fun e => e.source = n
  entry : c.edgesFrom (.entry m) =
    [.within (.entry m) (if b.isEmpty then .exit m else .stmt m 0) .entry]
  stmt : ∀ i s, b.stmt? i = some s → c.edgesFrom (.stmt m i) =
    (s.successors m (b.nodeAfter m i)).map fun (target, flow) => .within (.stmt m i) target flow
  exit : c.edgesFrom (.exit m) = []
  start : c.edgesInto (.entry m) = []

namespace Cfg

theorem nodeAt_succ (hi : i < b.size) : nodeAt m b.size (i + 1) = b.nodeAfter m i := by
  unfold nodeAt Body.nodeAfter
  by_cases h : i + 1 = b.size
  · simp [h]
  · rw [if_neg h, if_pos (by omega)]

theorem nodeAt_zero (m : MethodId) (b : Body) :
    nodeAt m b.size 0 = if b.isEmpty then .exit m else .stmt m 0 := by
  unfold nodeAt Body.size Body.isEmpty
  by_cases h : b.stmts.size = 0 <;> simp [Array.isEmpty, h, Nat.pos_iff_ne_zero]

/-- The edges out of a statement whose jumps stay in the body. -/
theorem edgesOf_eq (hi : i < b.size) (hjumps : ∀ t ∈ s.jumpTargets, t < b.size) :
    edgesOf m b.size i s = (s.successors m (b.nodeAfter m i)).map fun (target, flow) =>
      .within (.stmt m i) target flow := by
  have hjump : ∀ t ∈ s.jumpTargets, nodeAt m b.size t = .stmt m t := fun t ht =>
    if_pos (hjumps t ht)
  cases s with
  | goto t => simp [edgesOf, Stmt.successors, hjump t (by simp [Stmt.jumpTargets])]
  | branch c t =>
    simp [edgesOf, Stmt.successors, hjump t (by simp [Stmt.jumpTargets]), nodeAt_succ hi]
  | switch v cases default =>
    have hdefault := hjump default (by simp [Stmt.jumpTargets])
    have hcases : ∀ c ∈ cases, nodeAt m b.size c.2 = .stmt m c.2 := fun c hc =>
      hjump c.2 (List.mem_append_left _ (List.mem_map_of_mem hc))
    simp only [edgesOf, Stmt.successors, hdefault, List.map_append, List.map_map]
    refine congrArg (· ++ _) (List.map_congr_left fun c hc => ?_)
    rw [hcases c hc]
    rfl
  | ret v => rfl
  | assign x e | store l v | invoke r d | nop => simp [edgesOf, Stmt.successors, nodeAt_succ hi]

/-- Of what is read off a list by position, what belongs to one position. -/
theorem flatMap_zipIdx {α β : Type} (f : α → List β) (xs : List α) (k i : Nat) :
    ((xs.zipIdx k).flatMap fun x => if x.2 = i then f x.1 else []) =
      if k ≤ i then (xs[i - k]?).elim [] f else [] := by
  induction xs generalizing k with
  | nil => simp
  | cons x xs ih =>
    rw [List.zipIdx_cons, List.flatMap_cons, ih]
    rcases Nat.lt_trichotomy k i with hlt | rfl | hgt
    · have hpos : i - k = (i - (k + 1)) + 1 := by omega
      rw [if_neg (by simp; omega), if_pos (by omega), if_pos (by omega), hpos]
      rfl
    · simp
    · rw [if_neg (by simp; omega), if_neg (by omega), if_neg (by omega)]
      rfl

theorem edges_eq (m : MethodId) (b : Body) : (ofBody m b).graph.edges =
    .within (.entry m) (nodeAt m b.size 0) .entry ::
      b.stmts.toList.zipIdx.flatMap fun x => edgesOf m b.size x.2 x.1 := by
  simp [ofBody, Body.indexed, List.flatMap_map]

/-- In the list of edges those of one statement stand together. -/
theorem filter_edges_stmt (hs : b.stmt? i = some s) :
    ((ofBody m b).graph.edges.filter fun e => e.source = .stmt m i) = edgesOf m b.size i s := by
  have hown : ∀ x : Stmt × Nat, ((edgesOf m b.size x.2 x.1).filter fun e => e.source = .stmt m i) =
      if x.2 = i then edgesOf m b.size i x.1 else [] := by
    rintro ⟨s, j⟩
    split
    · next h =>
      obtain rfl : j = i := h
      refine List.filter_eq_self.mpr fun e he => ?_
      obtain ⟨t, flow, rfl⟩ := of_mem_edgesOf he
      exact decide_eq_true rfl
    · next h =>
      refine List.filter_eq_nil_iff.mpr fun e he hsource => h ?_
      obtain ⟨t, flow, rfl⟩ := of_mem_edgesOf he
      injection of_decide_eq_true hsource with _ hpoint
      injection hpoint
  have hentry : ¬ decide ((Edge.within (.entry m) (nodeAt m b.size 0) .entry).source =
      .stmt m i) = true := by simp [Edge.within, Node.entry, Node.stmt]
  have hget : b.stmts.toList[i]? = some s := by simpa [Body.stmt?] using hs
  rw [edges_eq, List.filter_cons, if_neg hentry, List.filter_flatMap]
  simp only [hown, flatMap_zipIdx, Nat.zero_le, if_true, Nat.sub_zero, hget, Option.elim_some]

theorem filter_edges_entry (m : MethodId) (b : Body) :
    ((ofBody m b).graph.edges.filter fun e => e.source = .entry m) =
      [.within (.entry m) (nodeAt m b.size 0) .entry] := by
  have hrest : ((b.stmts.toList.zipIdx.flatMap fun x => edgesOf m b.size x.2 x.1).filter
      fun e => e.source = .entry m) = [] := by
    refine List.filter_eq_nil_iff.mpr fun e he hsource => ?_
    obtain ⟨x, _, he⟩ := List.mem_flatMap.mp he
    obtain ⟨t, flow, rfl⟩ := of_mem_edgesOf he
    cases of_decide_eq_true hsource
  have hentry : decide ((Edge.within (.entry m) (nodeAt m b.size 0) .entry).source = .entry m) =
      true := decide_eq_true rfl
  rw [edges_eq, List.filter_cons, if_pos hentry, hrest]

end Cfg

namespace StoredCfg

theorem edgesFrom_exit (m : MethodId) (b : Body) : (ofBody m b).edgesFrom (.exit m) = [] := by
  rw [(lists_ofBody m b).edgesFrom]
  exact List.filter_eq_nil_iff.mpr fun e he hn => Cfg.source_ne_exit he (of_decide_eq_true hn)

/-- Read off the map in node order, the edges are those of the body in the order of its
statements. -/
theorem edges_ofBody (m : MethodId) (b : Body) :
    (ofBody m b).edges = (Cfg.ofBody m b).graph.edges := by
  have h := lists_ofBody m b
  have hpositions : List.range b.size = b.stmts.toList.zipIdx.map Prod.snd := by
    rw [List.zipIdx_map_snd, List.range_eq_range', Body.size, Array.length_toList]
  have hstmts : ((List.range b.size).map (.stmt m)).flatMap (ofBody m b).edgesFrom =
      b.stmts.toList.zipIdx.flatMap fun x => Cfg.edgesOf m b.size x.2 x.1 := by
    rw [hpositions, List.map_map, List.flatMap_map]
    refine List.flatMap_congr fun x hx => ?_
    have hs : b.stmt? x.2 = some x.1 := by
      simpa [Body.stmt?] using List.mem_zipIdx_iff_getElem?.mp hx
    exact (h.edgesFrom _).trans (Cfg.filter_edges_stmt hs)
  have hnodes : (ofBody m b).nodes = [.entry m] ++ (List.range b.size).map (.stmt m) ++ [.exit m] :=
    h.nodes
  rw [edges, hnodes, List.flatMap_append, List.flatMap_append, hstmts, List.flatMap_singleton,
    List.flatMap_singleton, edgesFrom_exit, List.append_nil, h.edgesFrom, Cfg.filter_edges_entry,
    Cfg.edges_eq]
  rfl

/-- The graph of a body of an accepted program has the edges of the body's own control flow; its
jumps were checked when the program was built. -/
theorem build_follows (hp : p.Accepted) (hb : p.body? m = some b) :
    ∃ c, StoredCfg.build p m = .ok c ∧ c.Follows m b := by
  have h := lists_ofBody m b
  refine ⟨ofBody m b, build_eq hb, ?_⟩
  constructor
  case nodes => exact h.nodes
  case edgesFrom =>
    intro n e he
    rw [h.edgesFrom] at he
    rw [h.nodes]
    exact (Cfg.closed_ofBody m b).of_mem_edgesFrom he
  case edgesInto =>
    intro n e he
    rw [h.edgesInto] at he
    rw [h.nodes]
    exact (Cfg.closed_ofBody m b).of_mem_edgesInto he
  case mirrored =>
    intro n k
    rw [h.edgesFrom, h.edgesInto]
    exact (Cfg.ofBody m b).graph.filter_edgesFrom n k
  case entry => rw [h.edgesFrom, Cfg.filter_edges_entry, Cfg.nodeAt_zero]
  case stmt =>
    intro i s hs
    rw [h.edgesFrom, Cfg.filter_edges_stmt hs]
    exact Cfg.edgesOf_eq (Body.lt_of_stmt? hs) (hp.stmtFault hb hs).1
  case exit => exact edgesFrom_exit m b
  case start =>
    rw [h.edgesInto]
    exact List.filter_eq_nil_iff.mpr fun e he hn => Cfg.target_ne_entry he (of_decide_eq_true hn)

end StoredCfg

/-! ### A body of jumps

`switch (x) { case 1: goto 2; case 1: goto 2; case -1: goto 0; default: goto 1 }; goto 0;
if (x == x) goto 1`, where the last statement can run past the end. -/

def Body.jumps : Body where
  this := none
  params := [⟨0⟩]
  stmts := #[.switch ⟨0⟩ [(1, 2), (1, 2), (-1, 0)] 1, .goto 0, .branch ⟨.eq, ⟨0⟩, ⟨0⟩⟩ 1]

def Builder.jumps : Builder where
  classes := #[⟨"C", none, [], false, false, [("void m(int)", ⟨0⟩)], []⟩]
  fields := #[]
  methods := #[⟨"void m(int)", ⟨0⟩, true, false, some .jumps⟩]
  vars := #[⟨"x", .int, ⟨0⟩⟩]
  entry := none
  root := none

theorem Builder.built_jumps : Builder.jumps.Built := by
  have h₁ := (Built.empty.addClass "C" none).addMethod
    (rfl : Builder.addMethod _ ⟨0⟩ "void m(int)" true = .ok (_, _))
  have h₂ := h₁.addVar ⟨0⟩ "x" .int
  exact h₂.setBody (rfl : Builder.setBody _ ⟨0⟩ .jumps = .ok _)

theorem StoredCfg.build_follows_jumps :
    Builder.jumps.program.Accepted ∧ Builder.jumps.program.body? ⟨0⟩ = some .jumps ∧
      ∃ c, StoredCfg.build Builder.jumps.program ⟨0⟩ = .ok c ∧ c.Follows ⟨0⟩ .jumps := by
  have haccepted : Builder.jumps.program.Accepted := ⟨_, Builder.built_jumps, rfl⟩
  exact ⟨haccepted, rfl, build_follows haccepted rfl⟩

end ProgramAnalysis
