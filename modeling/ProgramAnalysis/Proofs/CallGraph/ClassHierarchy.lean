import ProgramAnalysis.CallGraph.ClassHierarchy
import ProgramAnalysis.Proofs.CallGraph.Basic
import ProgramAnalysis.Proofs.Counting
import ProgramAnalysis.Proofs.Loop
import ProgramAnalysis.Proofs.Program.Hierarchy
import ProgramAnalysis.Proofs.Program.Lookup
import ProgramAnalysis.Proofs.Traced

/-! The call graph of the class hierarchy: the search ends with an edge for each target of each
call in a reachable method, and with no other edges. A method is queued once, so that the search
ends, and the fuel lasts until it does. -/
namespace ProgramAnalysis.ClassHierarchy
open Traced Relation

variable {p : Program} {entry m : MethodId} {call : Call}

/-! ### Targets -/

/-- The methods that a call may run, by the class that it names. -/
inductive Target (p : Program) (call : Call) (m : MethodId) : Prop
  | static : call.kind = .static →
      p.resolve call.target.cls call.target.subsignature = .ok (some m) → Target p call m
  | special : call.kind = .special →
      p.dispatch call.target.cls call.target.subsignature = .ok (some m) → Target p call m
  | below {c : ClassId} : call.kind = .virtual ∨ call.kind = .interface →
      c ∈ p.subtypes call.target.cls →
      p.dispatch c call.target.subsignature = .ok (some m) → Target p call m

theorem Target.static_iff (hk : call.kind = .static) : Target p call m ↔
    p.resolve call.target.cls call.target.subsignature = .ok (some m) := by
  refine ⟨fun h => ?_, .static hk⟩
  cases h with
  | static _ hm => exact hm
  | special hk' _ => rw [hk] at hk'; cases hk'
  | below hk' _ _ => rw [hk] at hk'; exact hk'.elim nofun nofun

theorem Target.special_iff (hk : call.kind = .special) : Target p call m ↔
    p.dispatch call.target.cls call.target.subsignature = .ok (some m) := by
  refine ⟨fun h => ?_, .special hk⟩
  cases h with
  | static hk' _ => rw [hk] at hk'; cases hk'
  | special _ hm => exact hm
  | below hk' _ _ => rw [hk] at hk'; exact hk'.elim nofun nofun

theorem Target.below_iff (hk : call.kind = .virtual ∨ call.kind = .interface) :
    Target p call m ↔ ∃ c ∈ p.subtypes call.target.cls,
      p.dispatch c call.target.subsignature = .ok (some m) := by
  refine ⟨fun h => ?_, fun ⟨c, hc, hm⟩ => .below hk hc hm⟩
  cases h with
  | static hk' _ => rw [hk'] at hk; exact hk.elim nofun nofun
  | special hk' _ => rw [hk'] at hk; exact hk.elim nofun nofun
  | below _ hc hm => exact ⟨_, hc, hm⟩

theorem not_target_dynamic (hk : call.kind = .dynamic) : ¬ Target p call m := by
  intro h
  cases h with
  | static hk' _ => rw [hk] at hk'; cases hk'
  | special hk' _ => rw [hk] at hk'; cases hk'
  | below hk' _ _ => rw [hk] at hk'; exact hk'.elim nofun nofun

theorem dispatchAll_ok (hp : p.Accepted) (hr : p.ClassesInRange) {s : String} {cs : List ClassId}
    (hcs : ∀ c ∈ cs, p.HasClass c) (found : List MethodId) :
    ∃ ms, dispatchAll p s cs found = .ok ms ∧
      ∀ m, m ∈ ms ↔ m ∈ found ∨ ∃ c ∈ cs, p.dispatch c s = .ok (some m) := by
  induction cs generalizing found with
  | nil => exact ⟨found, rfl, by simp⟩
  | cons c cs ih =>
    have hrest : ∀ d ∈ cs, p.HasClass d := fun d hd => hcs d (List.mem_cons_of_mem c hd)
    obtain ⟨r, hdispatch, _⟩ := Program.dispatch_ok hp hr (hcs c List.mem_cons_self) s
    rw [dispatchAll, hdispatch]
    cases r with
    | none =>
      obtain ⟨ms, hms, hiff⟩ := ih hrest found
      refine ⟨ms, hms, fun m => (hiff m).trans ?_⟩
      simp [hdispatch]
    | some k =>
      obtain ⟨ms, hms, hiff⟩ := ih hrest (if k ∈ found then found else found ++ [k])
      have hfound : ∀ m, m ∈ (if k ∈ found then found else found ++ [k]) ↔ m ∈ found ∨ m = k := by
        intro m
        split
        · next hk => exact ⟨.inl, fun h => h.elim id fun h => h ▸ hk⟩
        · simp
      refine ⟨ms, hms, fun m => (hiff m).trans ?_⟩
      rw [hfound]
      simp [hdispatch, or_assoc, eq_comm]

theorem targets_ok (hp : p.Accepted) (hr : p.ClassesInRange) (hc : p.HasClass call.target.cls) :
    ∃ ms, targets p call = .ok ms ∧ ∀ m, m ∈ ms ↔ Target p call m := by
  unfold targets
  cases hkind : call.kind with
  | static =>
    obtain ⟨r, hr, _⟩ := Program.resolve_ok hp hr hc call.target.subsignature
    refine ⟨r.toList, by simp only [hr]; rfl, fun m => ?_⟩
    rw [Option.mem_toList, Target.static_iff hkind, hr, Except.ok.injEq]
  | special =>
    obtain ⟨r, hr, _⟩ := Program.dispatch_ok hp hr hc call.target.subsignature
    refine ⟨r.toList, by simp only [hr]; rfl, fun m => ?_⟩
    rw [Option.mem_toList, Target.special_iff hkind, hr, Except.ok.injEq]
  | «virtual» | interface =>
    obtain ⟨ms, hms, hiff⟩ := dispatchAll_ok hp hr (s := call.target.subsignature)
      (fun c => Program.hasClass_of_mem_subtypes hc) []
    refine ⟨ms, hms, fun m => (hiff m).trans ?_⟩
    rw [Target.below_iff (by simp [hkind])]
    simp
  | dynamic => exact ⟨[], rfl, fun m => ⟨nofun, fun h => absurd h (not_target_dynamic hkind)⟩⟩

theorem Target.lt (hp : p.Accepted) (hr : p.ClassesInRange) (hc : p.HasClass call.target.cls)
    (ht : Target p call m) : m.index < p.methods.size := by
  have hdispatch : ∀ {c}, p.HasClass c → p.dispatch c call.target.subsignature = .ok (some m) →
      m.index < p.methods.size := fun hc h => by
    obtain ⟨r, hr, hlt⟩ := Program.dispatch_ok hp hr hc call.target.subsignature
    exact hlt m (Except.ok.inj (hr.symm.trans h))
  cases ht with
  | static _ h =>
    obtain ⟨r, hr, hlt⟩ := Program.resolve_ok hp hr hc call.target.subsignature
    exact hlt m (Except.ok.inj (hr.symm.trans h))
  | special _ h => exact hdispatch hc h
  | below _ hbelow h => exact hdispatch (Program.hasClass_of_mem_subtypes hc hbelow) h

/-! ### Edges of the hierarchy -/

/-- The edge joins a call of the program to one of its targets. -/
def Allows (p : Program) (e : CallEdge) : Prop :=
  ∃ result call, p.stmt? e.site = some (.invoke result call) ∧ call.kind = e.kind ∧
    Target p call e.callee

/-- There is a chain of edges from the entry. -/
def Reaches (p : Program) (entry m : MethodId) : Prop :=
  ReflTransGen (fun m n => ∃ e, Allows p e ∧ e.site.method = m ∧ e.callee = n) entry m

def Holds (g : CallGraph) (e : CallEdge) : Prop := e ∈ g.edges ∧ e.callee ∈ g.reachable

/-- The graph has all edges from a call. -/
def Linked (p : Program) (g : CallGraph) (site : StmtRef) : Prop :=
  ∀ e, e.site = site → Allows p e → Holds g e

/-- The graph has all edges from a method. -/
def Expanded (p : Program) (g : CallGraph) (m : MethodId) : Prop :=
  ∀ e, e.site.method = m → Allows p e → Holds g e

theorem Allows.lt (hp : p.Accepted) (hr : p.ClassesInRange) {e : CallEdge} (he : Allows p e) :
    e.callee.index < p.methods.size := by
  obtain ⟨result, call, hstmt, _, ht⟩ := he
  exact ht.lt hp hr (hr.call hstmt)

theorem Reaches.lt (hp : p.Accepted) (hr : p.ClassesInRange) (hlt : entry.index < p.methods.size)
    (h : Reaches p entry m) : m.index < p.methods.size := by
  cases h with
  | refl => exact hlt
  | tail _ he =>
    obtain ⟨e, he, _, rfl⟩ := he
    exact he.lt hp hr

theorem mem_calls {b : Body} {i : Nat} {result : Option VarId} :
    (i, result, call) ∈ b.calls ↔ b.stmt? i = some (.invoke result call) := by
  rw [← Program.mem_indexed, Body.calls, List.mem_filterMap]
  constructor
  · intro h
    obtain ⟨⟨j, st⟩, hmem, heq⟩ := h
    cases st <;> cases heq
    exact hmem
  · intro h
    exact ⟨_, h, rfl⟩

/-! ### The search -/

namespace Search

variable {s t u : Search} {site : StmtRef}

/-- Edges are those of the hierarchy, from reachable methods; a method is reached once. -/
structure Inv (p : Program) (entry : MethodId) (s : Search) : Prop where
  start : entry ∈ s.graph.reachable
  edge : ∀ {e}, e ∈ s.graph.edges → Allows p e ∧ e.site.method ∈ s.graph.reachable
  reached : ∀ {m}, m ∈ s.graph.reachable → Reaches p entry m
  nodup : s.graph.reachable.toList.Nodup
  queued : ∀ {m}, m ∈ s.queue → m ∈ s.graph.reachable

/-- The methods reached since are queued. -/
structure Grows (s t : Search) : Prop where
  edges : ∀ {e}, e ∈ s.graph.edges → e ∈ t.graph.edges
  reached : ∃ ms, t.graph.reachable.toList = s.graph.reachable.toList ++ ms ∧
    t.queue = s.queue ++ ms

theorem Grows.refl (s : Search) : Grows s s := ⟨id, [], by simp, by simp⟩

theorem Grows.trans (hst : Grows s t) (htu : Grows t u) : Grows s u where
  edges := htu.edges ∘ hst.edges
  reached := by
    obtain ⟨ms, hr, hq⟩ := hst.reached
    obtain ⟨ms', hr', hq'⟩ := htu.reached
    exact ⟨ms ++ ms', by rw [hr', hr, List.append_assoc], by rw [hq', hq, List.append_assoc]⟩

theorem Grows.reachable (h : Grows s t) (hm : m ∈ s.graph.reachable) : m ∈ t.graph.reachable := by
  obtain ⟨ms, hr, _⟩ := h.reached
  rw [← Array.mem_toList_iff, hr]
  exact List.mem_append_left _ (Array.mem_toList_iff.mpr hm)

theorem Grows.holds {e : CallEdge} (h : Grows s t) (he : Holds s.graph e) : Holds t.graph e :=
  ⟨h.edges he.1, h.reachable he.2⟩

theorem Grows.linked (h : Grows s t) (hs : Linked p s.graph site) : Linked p t.graph site :=
  fun e he ha => h.holds (hs e he ha)

theorem Grows.expanded (h : Grows s t) (hm : Expanded p s.graph m) : Expanded p t.graph m :=
  fun e he ha => h.holds (hm e he ha)

/-- A site has the kind of its call, so that an edge is there whatever it was added with. -/
theorem Inv.mem_addEdge {e : CallEdge} (hs : s.Inv p entry) (he : Allows p e) :
    e ∈ (s.graph.addEdge e).edges := by
  refine CallGraph.mem_addEdge_self fun e' he' hsite => ?_
  obtain ⟨result, call, hstmt, hkind, _⟩ := he
  obtain ⟨⟨result', call', hstmt', hkind', _⟩, _⟩ := hs.edge he'
  rw [hsite, hstmt] at hstmt'
  cases hstmt'
  exact hkind'.symm.trans hkind

theorem Inv.addEdge {e : CallEdge} (hs : s.Inv p entry) (he : Allows p e)
    (hm : e.site.method ∈ s.graph.reachable) :
    Inv p entry { s with graph := s.graph.addEdge e } where
  start := by rw [CallGraph.addEdge_reachable]; exact hs.start
  edge he' := by
    rw [CallGraph.addEdge_reachable]
    rcases CallGraph.of_mem_addEdge he' with he' | rfl
    · exact hs.edge he'
    · exact ⟨he, hm⟩
  reached hm' := by rw [CallGraph.addEdge_reachable] at hm'; exact hs.reached hm'
  nodup := by rw [CallGraph.addEdge_reachable]; exact hs.nodup
  queued hm' := by rw [CallGraph.addEdge_reachable]; exact hs.queued hm'

theorem Inv.addReachable (hs : s.Inv p entry) (hm : Reaches p entry m) :
    Inv p entry ⟨s.graph.addReachable m, s.queue ++ [m]⟩ := by
  have hmem : ∀ {n}, n ∈ (s.graph.addReachable m).reachable ↔ n ∈ s.graph.reachable ∨ n = m :=
    CallGraph.mem_addReachable
  refine ⟨hmem.mpr (.inl hs.start), fun {e} he => ?_, fun {n} hn => ?_,
    CallGraph.nodup_addReachable hs.nodup, fun {n} hn => ?_⟩
  · rw [CallGraph.addReachable_edges] at he
    exact (hs.edge he).imp_right fun h => hmem.mpr (.inl h)
  · rcases hmem.mp hn with hn | rfl
    · exact hs.reached hn
    · exact hm
  · rcases List.mem_append.mp hn with hn | hn
    · exact hmem.mpr (.inl (hs.queued hn))
    · exact hmem.mpr (.inr (List.mem_singleton.mp hn))

theorem link_ok {kind : CallKind} (hs : s.Inv p entry) (ha : Allows p ⟨kind, site, m⟩)
    (hsite : site.method ∈ s.graph.reachable) : Returns (s.link kind site m) fun t =>
      t.Inv p entry ∧ Grows s t ∧ Holds t.graph ⟨kind, site, m⟩ := by
  have hinv := hs.addEdge ha hsite
  have hedge := hs.mem_addEdge ha
  have hold : ∀ {e}, e ∈ s.graph.edges → e ∈ (s.graph.addEdge ⟨kind, site, m⟩).edges :=
    CallGraph.mem_addEdge_of_mem
  unfold link
  dsimp only
  split
  · next hm =>
    rw [returns_pure]
    exact ⟨hinv, ⟨hold, [], by simp, by simp⟩, hedge, CallGraph.isReachable_iff.mp hm⟩
  · next hm =>
    rw [returns_log_bind, returns_pure]
    have hreaches : Reaches p entry m := (hs.reached hsite).tail ⟨_, ha, rfl, rfl⟩
    have hlist := CallGraph.toList_addReachable hm
    refine ⟨hinv.addReachable hreaches, ⟨fun he => ?_, [m], ?_, rfl⟩, ?_, ?_⟩
    · rw [CallGraph.addReachable_edges]
      exact hold he
    · rw [hlist, CallGraph.addEdge_reachable]
    · rw [CallGraph.addReachable_edges]
      exact hedge
    · exact CallGraph.mem_addReachable.mpr (.inr rfl)

theorem visitCall_ok (hp : p.Accepted) (hr : p.ClassesInRange) {i : Nat} {result : Option VarId}
    (hs : s.Inv p entry) (hm : m ∈ s.graph.reachable)
    (hstmt : p.stmt? ⟨m, i⟩ = some (.invoke result call)) :
    Returns (visitCall p m s (i, result, call)) fun t => t.Inv p entry ∧ Grows s t ∧
      Linked p t.graph ⟨m, i⟩ := by
  obtain ⟨ms, htargets, hiff⟩ := targets_ok hp hr (hr.call hstmt)
  have hloop : Returns (ms.foldlM (fun s callee => s.link call.kind ⟨m, i⟩ callee) s) fun t =>
      (t.Inv p entry ∧ m ∈ t.graph.reachable) ∧ Grows s t ∧
        ∀ n ∈ ms, Holds t.graph ⟨call.kind, ⟨m, i⟩, n⟩ := by
    refine Returns.foldlM (I := fun t => t.Inv p entry ∧ m ∈ t.graph.reachable)
      (D := fun n t => Holds t.graph ⟨call.kind, ⟨m, i⟩, n⟩)
      Grows.refl Grows.trans (fun h => h.holds) (fun n hn s hs => ?_) ⟨hs, hm⟩
    have ha : Allows p ⟨call.kind, ⟨m, i⟩, n⟩ := ⟨result, call, hstmt, rfl, (hiff n).mp hn⟩
    refine (link_ok hs.1 ha hs.2).mono fun t ht => ?_
    exact ⟨⟨ht.1, ht.2.1.reachable hs.2⟩, ht.2⟩
  have hvisit : Returns (ms.foldlM (fun s callee => s.link call.kind ⟨m, i⟩ callee) s) fun t =>
      t.Inv p entry ∧ Grows s t ∧ Linked p t.graph ⟨m, i⟩ := by
    refine hloop.mono fun t ht => ⟨ht.1.1, ht.2.1, fun e he ha => ?_⟩
    obtain ⟨kind, site, n⟩ := e
    obtain ⟨result', call', hstmt', hkind, htarget⟩ := ha
    cases he
    rw [hstmt] at hstmt'
    cases hstmt'
    cases hkind
    exact ht.2.2 n ((hiff n).mpr htarget)
  unfold visitCall
  dsimp only
  rw [returns_lift_bind htargets]
  split
  · rw [returns_log_bind]
    exact hvisit
  · exact hvisit

theorem visit_ok (hp : p.Accepted) (hr : p.ClassesInRange) (hlt : m.index < p.methods.size)
    (hs : s.Inv p entry) (hm : m ∈ s.graph.reachable) : Returns (visit p s m) fun t =>
      t.Inv p entry ∧ Grows s t ∧ Expanded p t.graph m := by
  unfold visit
  rw [returns_lift_bind (Program.getBody_eq hlt)]
  cases hb : p.body? m with
  | none =>
    rw [returns_pure]
    refine ⟨hs, .refl s, fun e he ha => ?_⟩
    obtain ⟨_, _, hstmt, _⟩ := ha
    obtain ⟨b, hb', _⟩ := Program.stmt?_eq_some_iff.mp hstmt
    rw [he, hb] at hb'
    cases hb'
  | some b =>
    have hcalls : ∀ {i result call}, (i, result, call) ∈ b.calls ↔
        p.stmt? ⟨m, i⟩ = some (.invoke result call) := by
      intro i result call
      rw [mem_calls, Program.stmt?_eq_some_iff]
      simp [hb]
    have hloop : Returns (b.calls.foldlM (visitCall p m) s) fun t =>
        (t.Inv p entry ∧ m ∈ t.graph.reachable) ∧ Grows s t ∧
          ∀ c ∈ b.calls, Linked p t.graph ⟨m, c.1⟩ := by
      refine Returns.foldlM (I := fun t => t.Inv p entry ∧ m ∈ t.graph.reachable)
        (D := fun (c : Nat × Option VarId × Call) t => Linked p t.graph ⟨m, c.1⟩)
        Grows.refl Grows.trans (fun h => h.linked) (fun c hc s hs => ?_) ⟨hs, hm⟩
      refine (visitCall_ok hp hr hs.1 hs.2 (hcalls.mp hc)).mono fun t ht => ?_
      exact ⟨⟨ht.1, ht.2.1.reachable hs.2⟩, ht.2⟩
    refine hloop.mono fun t ht => ⟨ht.1.1, ht.2.1, fun e he ha => ?_⟩
    obtain ⟨kind, ⟨m', i⟩, n⟩ := e
    cases he
    have ⟨result, call, hstmt, _⟩ := ha
    exact ht.2.2 _ (hcalls.mpr hstmt) _ rfl ha

/-- Every reachable method waits or is expanded. -/
def Settled (p : Program) (s : Search) : Prop :=
  ∀ m ∈ s.graph.reachable, m ∈ s.queue ∨ Expanded p s.graph m

theorem Inv.size_le (hp : p.Accepted) (hr : p.ClassesInRange) (hlt : entry.index < p.methods.size)
    (hs : s.Inv p entry) : s.graph.reachable.size ≤ p.methods.size := by
  rw [← Array.length_toList]
  refine length_le_of_index_lt hs.nodup fun m hm => ?_
  exact (hs.reached (Array.mem_toList_iff.mp hm)).lt hp hr hlt

theorem Settled.finished (hs : s.Inv p entry) (hopen : Settled p s) (hempty : s.queue = []) :
    Inv p entry ⟨s.graph, []⟩ ∧ ∀ m ∈ s.graph.reachable, Expanded p s.graph m := by
  refine ⟨⟨hs.start, hs.edge, hs.reached, hs.nodup, nofun⟩, fun m hm => ?_⟩
  refine (hopen m hm).resolve_left ?_
  rw [hempty]
  exact List.not_mem_nil

/-- Visiting the first method of the queue leaves it expanded, and the methods reached waiting. -/
theorem Settled.visited {queue : List MethodId} (hopen : Settled p s) (hqueue : s.queue = m :: queue)
    (hgrows : Grows { s with queue } t) (hm : Expanded p t.graph m) : Settled p t := by
  obtain ⟨ms, hreachable, hqueued⟩ := hgrows.reached
  intro n hn
  rw [← Array.mem_toList_iff, hreachable, List.mem_append] at hn
  rw [hqueued, List.mem_append]
  rcases hn with hn | hn
  · rcases hopen n (Array.mem_toList_iff.mp hn) with hwaits | hexpanded
    · rw [hqueue] at hwaits
      rcases List.mem_cons.mp hwaits with rfl | hwaits
      · exact .inr hm
      · exact .inl (.inl hwaits)
    · exact .inr (hgrows.expanded hexpanded)
  · exact .inl (.inr hn)

/-- The methods that wait, and those that may still come to wait: each enters the queue once. -/
def remaining (p : Program) (s : Search) : Nat :=
  p.methods.size + s.queue.length - s.graph.reachable.size

/-- A visit takes one method off the queue, and what it adds to the queue it reaches. -/
theorem visit_settles (hp : p.Accepted) (hr : p.ClassesInRange)
    (hlt : entry.index < p.methods.size) {queue : List MethodId} (hs : s.Inv p entry)
    (hopen : Settled p s) (hqueue : s.queue = m :: queue) :
    Returns (visit p { s with queue } m) fun t =>
      (t.Inv p entry ∧ Settled p t) ∧ t.remaining p < s.remaining p := by
  have hm : m ∈ s.graph.reachable := hs.queued (hqueue ▸ List.mem_cons_self)
  have hpop : Inv p entry { s with queue } :=
    ⟨hs.start, hs.edge, hs.reached, hs.nodup,
      fun hn => hs.queued (hqueue ▸ List.mem_cons_of_mem m hn)⟩
  refine (visit_ok hp hr ((hs.reached hm).lt hp hr hlt) hpop hm).mono fun t ht => ?_
  obtain ⟨hinv, hgrows, hexpanded⟩ := ht
  refine ⟨⟨hinv, hopen.visited hqueue hgrows hexpanded⟩, ?_⟩
  have hsize := hinv.size_le hp hr hlt
  obtain ⟨ms, hreachable, hqueued⟩ := hgrows.reached
  have hreached := congrArg List.length hreachable
  simp only [List.length_append, Array.length_toList] at hreached
  unfold remaining
  rw [hqueue, hqueued, List.length_append, List.length_cons]
  dsimp only at hreached ⊢
  omega

/-- Each round spends one unit of fuel, and the fuel lasts until the queue is empty. -/
theorem run_ok (hp : p.Accepted) (hr : p.ClassesInRange) (hlt : entry.index < p.methods.size)
    {fuel : Nat} (hs : s.Inv p entry) (hopen : Settled p s) (hfuel : s.remaining p ≤ fuel) :
    Returns (run p fuel s) fun g => Inv p entry ⟨g, []⟩ ∧ ∀ m ∈ g.reachable, Expanded p g m := by
  induction fuel generalizing s with
  | zero =>
    have hsize := hs.size_le hp hr hlt
    unfold remaining at hfuel
    rw [run, returns_pure]
    exact hopen.finished hs (List.eq_nil_of_length_eq_zero (by omega))
  | succ fuel ih =>
    rw [run]
    split
    · next hempty =>
      rw [returns_pure]
      exact hopen.finished hs hempty
    · next m queue hqueue =>
      refine (visit_settles hp hr hlt hs hopen hqueue).bind fun t ht => ?_
      exact ih ht.1.1 ht.1.2 (by omega)

/-! ### The end of the loop -/

/-- One round of the search without fuel. A failure ends it. -/
def round (p : Program) (s : Search) : Search ⊕ Except AnalysisError CallGraph :=
  match s.queue with
  | [] => .inr (.ok s.graph)
  | m :: queue =>
    match (visit p { s with queue } m).result with
    | .ok t => .inl t
    | .error e => .inr (.error e)

theorem run_succ (fuel : Nat) (s : Search) : (run p (fuel + 1) s).result =
    (round p s).elim (fun t => (run p fuel t).result) id := by
  obtain ⟨graph, _ | ⟨m, queue⟩⟩ := s
  · rfl
  · simp only [run, round, result_bind]
    cases (visit p ⟨graph, queue⟩ m).result <;> rfl

theorem run_ends (hp : p.Accepted) (hr : p.ClassesInRange) (hlt : entry.index < p.methods.size)
    {fuel : Nat} (hs : s.Inv p entry) (hopen : Settled p s) (hfuel : s.remaining p < fuel) :
    Ends (round p) s (run p fuel s).result := by
  refine Ends.of_fuel (fun fuel s => (run p fuel s).result)
    (fun s => s.Inv p entry ∧ Settled p s) (remaining p) run_succ (fun {s t} hs h => ?_)
    ⟨hs, hopen⟩ hfuel
  unfold round at h
  split at h
  · cases h
  · next m queue hqueue =>
    obtain ⟨u, hu, hsettled⟩ := visit_settles hp hr hlt hs.1 hs.2 hqueue
    rw [hu] at h
    cases h
    exact hsettled

/-! ### The start -/

def start (entry : MethodId) : Search :=
  ⟨(CallGraph.empty.addEntry entry).addReachable entry, [entry]⟩

theorem start_eq (entry : MethodId) : start entry = ⟨⟨[entry], #[entry], #[]⟩, [entry]⟩ := by
  simp [start, CallGraph.addReachable, CallGraph.isReachable, CallGraph.addEntry, CallGraph.empty]

theorem inv_start (p : Program) (entry : MethodId) : Inv p entry (start entry) := by
  rw [start_eq]
  refine ⟨by simp, fun {e} he => absurd he (Array.not_mem_empty e), fun {m} hm => ?_, by simp, ?_⟩
  · rw [Array.mem_singleton.mp hm]
    exact .refl
  · simp

theorem settled_start (p : Program) (entry : MethodId) : Settled p (start entry) := by
  rw [start_eq]
  exact fun m hm => .inl (List.mem_singleton.mpr (Array.mem_singleton.mp hm))

theorem remaining_start (p : Program) (entry : MethodId) :
    (start entry).remaining p < p.methods.size + 2 := by
  simp [start_eq, remaining]

end Search

theorem build_result (p : Program) (entry : MethodId) :
    (build p entry).result = (Search.run p (p.methods.size + 2) (.start entry)).result := by
  unfold build
  rw [result_bind]
  exact bind_pure _

/-- The call graph has the edges of the hierarchy from the methods that they reach, and no others. -/
theorem build_ok (hp : p.Accepted) (hr : p.ClassesInRange) (hlt : entry.index < p.methods.size) :
    Returns (build p entry) fun g =>
      Search.Inv p entry ⟨g, []⟩ ∧ ∀ m ∈ g.reachable, Expanded p g m := by
  obtain ⟨g, hg, hgraph⟩ := Search.run_ok hp hr hlt (Search.inv_start p entry)
    (Search.settled_start p entry) (Search.remaining_start p entry).le
  exact ⟨g, (build_result p entry).trans hg, hgraph⟩

/-- The search comes to an end, with the queue empty and the result of the whole. -/
theorem build_ends (hp : p.Accepted) (hr : p.ClassesInRange) (hlt : entry.index < p.methods.size) :
    Ends (Search.round p) (.start entry) (build p entry).result := by
  rw [build_result]
  exact Search.run_ends hp hr hlt (Search.inv_start p entry) (Search.settled_start p entry)
    (Search.remaining_start p entry)

end ProgramAnalysis.ClassHierarchy
