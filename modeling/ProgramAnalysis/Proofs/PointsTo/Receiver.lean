import ProgramAnalysis.Proofs.PointsTo.Statement

/-! Calls through a receiver. An object at the receiver decides which method runs; the solver finds
that method, sends the object to its `this` and links the call. -/
namespace ProgramAnalysis.PointsTo

variable {q : Problem} {S : Facts} {s t : State} {m entry : MethodId} {o : ObjId} {v : VarId}
  {call : Call} {h : Heap} {b : Body}

/-! ### What runs -/

section RunsOn

variable {p : Program} {ty : Ty}

theorem RunsOn.static_iff (hk : call.kind = .static) : RunsOn p call ty m ↔
    p.resolve call.target.cls call.target.subsignature = .ok (some m) := by
  refine ⟨fun h => ?_, .static hk⟩
  cases h with
  | static _ hm => exact hm
  | special hk' _ => rw [hk] at hk'; cases hk'
  | onClass hk' _ _ => rw [hk] at hk'; exact hk'.elim nofun nofun

theorem RunsOn.special_iff (hk : call.kind = .special) : RunsOn p call ty m ↔
    p.dispatch call.target.cls call.target.subsignature = .ok (some m) := by
  refine ⟨fun h => ?_, .special hk⟩
  cases h with
  | static hk' _ => rw [hk] at hk'; cases hk'
  | special _ hm => exact hm
  | onClass hk' _ _ => rw [hk] at hk'; exact hk'.elim nofun nofun

theorem RunsOn.onClass_iff (hk : call.kind = .virtual ∨ call.kind = .interface) :
    RunsOn p call ty m ↔ ∃ c, receiverClass? p ty = some c ∧
      p.dispatch c call.target.subsignature = .ok (some m) := by
  refine ⟨fun h => ?_, fun ⟨c, hc, hm⟩ => .onClass hk hc hm⟩
  cases h with
  | static hk' _ => rw [hk'] at hk; exact hk.elim nofun nofun
  | special hk' _ => rw [hk'] at hk; exact hk.elim nofun nofun
  | onClass _ hc hm => exact ⟨_, hc, hm⟩

theorem not_runsOn_dynamic (hk : call.kind = .dynamic) : ¬ RunsOn p call ty m := by
  intro h
  cases h with
  | static hk' _ => rw [hk] at hk'; cases hk'
  | special hk' _ => rw [hk] at hk'; cases hk'
  | onClass hk' _ _ => rw [hk] at hk'; exact hk'.elim nofun nofun

end RunsOn

/-! ### The receiver's target -/

theorem callTarget_eq_dispatch (hk : call.kind = .virtual ∨ call.kind = .interface)
    (receiver : Option ObjId) : callTarget q h receiver call =
      orDangling (receiver.bind h.object?) >>= fun x =>
        match receiverClass? q.program x.ty with
        | some c => q.program.dispatch c call.target.subsignature
        | none => .ok none := by
  unfold callTarget
  rcases hk with hk | hk <;> rw [hk]
  all_goals
    dsimp only
    cases orDangling (receiver.bind h.object?) with
    | error e => rfl
    | ok x =>
      dsimp only [bind, Except.bind]
      cases x.ty with
      | cls c => rfl
      | array ty =>
        dsimp only [receiverClass?]
        cases q.program.root <;> rfl
      | prim p => rfl
      | null => rfl

theorem callTarget_onClass (hk : call.kind = .virtual ∨ call.kind = .interface)
    {x : HeapObject} (hx : h.object? o = some x) : callTarget q h (some o) call =
      match receiverClass? q.program x.ty with
      | some c => q.program.dispatch c call.target.subsignature
      | none => .ok none := by
  rw [callTarget_eq_dispatch hk, Option.bind_some, hx]
  rfl

theorem hasClass_of_receiverClass? (hr : q.program.ClassesInRange) (hv : h.Valid q.model q.program)
    {x : HeapObject} {c : ClassId} (hx : h.object? o = some x)
    (hc : receiverClass? q.program x.ty = some c) : q.program.HasClass c := by
  obtain ⟨y, hy⟩ := hv.site hx
  unfold receiverClass? at hc
  split at hc
  · next c' hty =>
    cases hc
    exact hr.allocation (hty ▸ hy)
  · exact hr.root hc
  · cases hc
  · cases hc

/-- The solver finds the method that a call runs on an object, and fails on no object that the
program allocates. -/
theorem callTarget_ok (hp : q.program.Accepted) (hclasses : q.program.ClassesInRange)
    (hv : h.Valid q.model q.program) {x : HeapObject} (hx : h.object? o = some x)
    (hc : q.program.HasClass call.target.cls) :
    ∃ r, callTarget q h (some o) call = .ok r ∧
      (∀ {m}, r = some m ↔ RunsOn q.program call x.ty m) ∧
      ∀ {m}, r = some m → m.index < q.program.methods.size := by
  cases hk : call.kind with
  | static =>
    obtain ⟨r, hr, hlt⟩ := Program.resolve_ok hp hclasses hc call.target.subsignature
    refine ⟨r, (callTarget_static hk).trans hr, fun {m} => ?_, fun h => hlt _ h⟩
    rw [RunsOn.static_iff hk, hr, Except.ok.injEq]
  | special =>
    obtain ⟨r, hr, hlt⟩ := Program.dispatch_ok hp hclasses hc call.target.subsignature
    refine ⟨r, by unfold callTarget; rw [hk]; exact hr, fun {m} => ?_, fun h => hlt _ h⟩
    rw [RunsOn.special_iff hk, hr, Except.ok.injEq]
  | dynamic =>
    refine ⟨none, by unfold callTarget; rw [hk]; rfl, fun {m} => ?_, nofun⟩
    exact ⟨nofun, fun h => absurd h (not_runsOn_dynamic hk)⟩
  | virtual | interface =>
    have hkind : call.kind = .virtual ∨ call.kind = .interface := by simp [hk]
    rw [callTarget_onClass hkind hx]
    cases hr : receiverClass? q.program x.ty with
    | none =>
      refine ⟨none, rfl, fun {m} => ?_, nofun⟩
      rw [RunsOn.onClass_iff hkind, hr]
      simp
    | some c =>
      have hhas := hasClass_of_receiverClass? hclasses hv hx hr
      obtain ⟨r, hd, hlt⟩ := Program.dispatch_ok hp hclasses hhas
        call.target.subsignature
      refine ⟨r, hd, fun {m} => ?_, fun h => hlt _ h⟩
      rw [RunsOn.onClass_iff hkind, hr]
      simp [hd]

/-! ### Processing a call -/

theorem exists_invoke_of_through? {st : Stmt} (ht : st.through? = some (.invoke, v)) :
    ∃ result call, st = .invoke result call ∧ call.receiver = some v := by
  unfold Stmt.through? at ht
  split at ht
  case h_5 result call =>
    obtain ⟨w, hw, heq⟩ := Option.map_eq_some_iff.mp ht
    cases heq
    exact ⟨result, call, rfl, hw⟩
  all_goals cases ht

theorem eq_invoke_of_through? {result : Option VarId} {kind : UseKind}
    (ht : (Stmt.invoke result call).through? = some (kind, v)) : kind = .invoke := by
  obtain ⟨w, _, heq⟩ := Option.map_eq_some_iff.mp ht
  cases heq
  rfl

/-- The receiver goes to the `this` of the callee, if it has one. -/
def State.sendThis (p : Program) (callee : MethodId) (o : ObjId) (s : State) : State :=
  match (p.body? callee).bind (·.this) with
  | some this => s.send (.var this) (.singleton o)
  | none => s

theorem Inv.sendThis {callee : MethodId} (hp : Serves q S) (hs : Inv q S s)
    (hcallee : callee ∈ S.reachable) (hj : ∀ b this, q.program.body? callee = some b → b.this = some this →
      ∃ a, s.heap.abstract? q.model o = some a ∧ a ∈ S.pointsTo (.var this)) :
    Inv q S (s.sendThis q.program callee o) ∧ Progress q s (s.sendThis q.program callee o) ∧
      ∀ b this, q.program.body? callee = some b → b.this = some this →
        (s.sendThis q.program callee o).Reaches (.var this) o := by
  unfold State.sendThis
  cases hbind : (q.program.body? callee).bind (·.this) with
  | none =>
    refine ⟨hs, .refl s, fun b this hb hthis => ?_⟩
    rw [hb, Option.bind_some, hthis] at hbind
    cases hbind
  | some this =>
    obtain ⟨b, hb, hthis⟩ := Option.bind_eq_some_iff.mp hbind
    have hlive := hp.this hcallee hb hthis
    obtain ⟨a, ha, hmem⟩ := hj b this hb hthis
    have hjustified : Justified q S s.heap (.var this) o := ⟨hlive, _, a, rfl, ha, hmem⟩
    refine ⟨hs.send (P := .var this) hlive.lt hjustified,
      .of_edges (.send hs.wellFormed (.var this) (.singleton o)) rfl, fun b' this' hb' hthis' => ?_⟩
    rw [hb', Option.bind_some, hthis'] at hbind
    cases hbind
    exact State.reaches_send hs.wellFormed

theorem Inv.processCall {i : Nat} {st : Stmt} (hp : Serves q S) (hS : S.Satisfies q entry)
    (hs : Inv q S s) (hb : q.program.body? m = some b) (hi : b.stmt? i = some st)
    (ht : st.through? = some (.invoke, v)) (hm : m ∈ S.reachable)
    (hj : Justified q S s.heap (.var v) o) : Traced.Returns (processCall q b m o s i) fun t =>
      Inv q S t ∧ Progress q s t ∧ ArrivalDone q t o ⟨m, i⟩ st := by
  obtain ⟨result, call, rfl, hrecv⟩ := exists_invoke_of_through? ht
  have hstmt : q.program.stmt? ⟨m, i⟩ = some (.invoke result call) :=
    Program.stmt?_eq_some_iff.mpr ⟨b, hb, hi⟩
  have hholds := (hS.stmt hm hstmt).2 v hrecv
  obtain ⟨l, a, hl, ha, hmem⟩ := hj.fact
  cases hl
  obtain ⟨x, hx, hty⟩ := Heap.abstract?_ty ha
  obtain ⟨r, hr, hruns, hlt⟩ := callTarget_ok hp.accepted hp.classes hs.heap hx
    (hp.classes.call hstmt)
  have hdone : ∀ {u : State}, s.heap ≤ u.heap →
      (∀ m', RunsOn q.program call x.ty m' → ⟨call.kind, ⟨m, i⟩, m'⟩ ∈ u.calls.edges ∧
        ∀ b this, q.program.body? m' = some b → b.this = some this → u.Reaches (.var this) o) →
      ArrivalDone q u o ⟨m, i⟩ (.invoke result call) := by
    intro u hle hall
    refine ⟨fun hf => (by cases hf), fun he => ?_⟩
    cases he
    exact ⟨x, hle hx, hall⟩
  unfold PointsTo.processCall
  rw [Traced.returns_lift_bind (orDangling_eq_ok_iff.mpr hi)]
  dsimp only
  rw [Traced.returns_lift_bind hr]
  cases r with
  | none =>
    rw [Traced.returns_log_bind, Traced.returns_pure]
    exact ⟨hs, .refl s, hdone s.heap.le_refl fun m' h => by cases hruns.mpr h⟩
  | some callee =>
    obtain ⟨hlinked, hthis⟩ := hholds a hmem callee (hty ▸ hruns.mp rfl)
    dsimp only
    rw [Traced.returns_lift_bind (Program.getBody_eq (hlt rfl))]
    obtain ⟨hsent, hprog, hreaches⟩ := hs.sendThis hp hlinked.reachable
      fun b this hb hthis' => ⟨a, ha, hthis b this hb hthis'⟩
    refine (hsent.link hp hstmt hm hlinked (hlt rfl)).mono fun t ht => ?_
    obtain ⟨hinv, hprog', hedge⟩ := ht
    refine ⟨hinv, hprog.trans hprog', hdone (hprog.trans hprog').heap fun m' h => ?_⟩
    rw [← Option.some.inj (hruns.mpr h)]
    exact ⟨hedge, fun b this hb hthis' => hprog'.toExtends.grows.reaches (hreaches b this hb hthis')⟩

end ProgramAnalysis.PointsTo
