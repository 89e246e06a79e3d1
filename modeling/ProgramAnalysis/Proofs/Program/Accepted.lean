import ProgramAnalysis.Program.Builder
import ProgramAnalysis.Proofs.Except

/-! Accepted programs: those that a sequence of builder calls ends in and whose bodies pass the
checks. Every method that a class declares exists, and the statements of a body jump inside it and
mention variables of its method only. What the checks leave open (class handles, `this` and
parameters) is stated apart. -/
namespace ProgramAnalysis

/-- The states that builder calls lead to. -/
inductive Builder.Built : Builder → Prop
  | empty : Built .empty
  | addClass {b : Builder} (name : String) (superclass : Option ClassId) :
      Built b → Built (b.addClass name superclass).2
  | addInterface {b : Builder} (name : String) (supers : List ClassId) :
      Built b → Built (b.addInterface name supers).2
  | implement {b b' : Builder} {c interface : ClassId} :
      Built b → b.implement c interface = .ok b' → Built b'
  | setAbstract {b b' : Builder} {c : ClassId} : Built b → b.setAbstract c = .ok b' → Built b'
  | setRoot {b : Builder} (c : ClassId) : Built b → Built (b.setRoot c)
  | addField {b b' : Builder} {c : ClassId} {name : String} {ty : Ty} {isStatic : Bool}
      {f : FieldId} : Built b → b.addField c name ty isStatic = .ok (f, b') → Built b'
  | addMethod {b b' : Builder} {c : ClassId} {subsignature : String} {isStatic : Bool}
      {m : MethodId} : Built b → b.addMethod c subsignature isStatic = .ok (m, b') → Built b'
  | addAbstractMethod {b b' : Builder} {c : ClassId} {subsignature : String} {m : MethodId} :
      Built b → b.addAbstractMethod c subsignature = .ok (m, b') → Built b'
  | addVar {b : Builder} (m : MethodId) (name : String) (ty : Ty) :
      Built b → Built (b.addVar m name ty).2
  | setBody {b b' : Builder} {m : MethodId} {body : Body} :
      Built b → b.setBody m body = .ok b' → Built b'
  | setEntry {b : Builder} (m : MethodId) : Built b → Built (b.setEntry m)

namespace Program

variable {p : Program}

def Accepted (p : Program) : Prop := ∃ b : Builder, b.Built ∧ b.build = .ok p

def body? (p : Program) (m : MethodId) : Option Body := (p.method? m).bind (·.body)

def stmt? (p : Program) (site : StmtRef) : Option Stmt :=
  (p.body? site.method).bind (·.stmt? site.index)

def Owns (p : Program) (m : MethodId) (v : VarId) : Prop := ∃ d, p.var? v = some d ∧ d.method = m

def OwnsThis (p : Program) : Prop := ∀ m b v, p.body? m = some b → b.this = some v → p.Owns m v

def OwnsParams (p : Program) : Prop := ∀ m b, p.body? m = some b → ∀ v ∈ b.params, p.Owns m v

def HasClass (p : Program) (c : ClassId) : Prop := c.index < p.classes.size

instance (p : Program) (c : ClassId) : Decidable (p.HasClass c) :=
  inferInstanceAs (Decidable (_ < _))

/-- The class handles that lookups follow: superclasses, interfaces, the root, the classes that
calls refer to, and those that are allocated. -/
structure ClassesInRange (p : Program) : Prop where
  superclass : ∀ {c d s}, p.class? c = some d → d.superclass = some s → p.HasClass s
  interface : ∀ {c d s}, p.class? c = some d → s ∈ d.interfaces → p.HasClass s
  root : ∀ {c}, p.root = some c → p.HasClass c
  call : ∀ {site result call}, p.stmt? site = some (.invoke result call) →
    p.HasClass call.target.cls
  allocation : ∀ {site x c}, p.stmt? site = some (.assign x (.new (.cls c))) → p.HasClass c

/-- Accepted, and proper in what the checks leave open. -/
structure Proper (p : Program) : Prop where
  accepted : p.Accepted
  classes : p.ClassesInRange
  this : p.OwnsThis
  params : p.OwnsParams

end Program

namespace Builder

variable {b b' : Builder}

theorem modifyClass_ok {c : ClassId} {f : ClassDecl → ClassDecl}
    (h : b.modifyClass c f = .ok b') :
    b' = { b with classes := b.classes.modify c.index f } := by
  unfold modifyClass at h
  split at h
  · exact (Except.ok.inj h).symm
  · cases h

theorem mem_modify {α : Type} {xs : Array α} {i : Nat} {f : α → α} {x : α}
    (h : x ∈ xs.modify i f) : x ∈ xs ∨ ∃ y ∈ xs, x = f y := by
  obtain ⟨j, hj, rfl⟩ := Array.mem_iff_getElem.mp h
  rw [Array.size_modify] at hj
  rw [Array.getElem_modify]
  split
  · exact .inr ⟨_, Array.getElem_mem hj, rfl⟩
  · exact .inl (Array.getElem_mem hj)

/-- Classes declare methods that exist. -/
def Declares (b : Builder) : Prop := ∀ d ∈ b.classes, ∀ e ∈ d.methods, e.2.index < b.methods.size

theorem Declares.pushClass {decl : ClassDecl} (h : b.Declares) (hd : decl.methods = []) :
    (b.pushClass decl).2.Declares := by
  intro d hm e he
  rcases Array.mem_push.mp hm with hm | rfl
  · exact h d hm e he
  · rw [hd] at he
    cases he

theorem Declares.modifyClass {c : ClassId} {f : ClassDecl → ClassDecl} (h : b.Declares)
    (hb : b.modifyClass c f = .ok b') (hf : ∀ d, (f d).methods = d.methods) : b'.Declares := by
  rw [modifyClass_ok hb]
  intro d hd e he
  rcases mem_modify hd with hd | ⟨d₀, hd₀, rfl⟩
  · exact h d hd e he
  · exact h d₀ hd₀ e (hf d₀ ▸ he)

theorem Declares.addField {c : ClassId} {name : String} {ty : Ty} {isStatic : Bool} {f : FieldId}
    (h : b.Declares) (hb : b.addField c name ty isStatic = .ok (f, b')) : b'.Declares := by
  unfold Builder.addField at hb
  dsimp only at hb
  cases hc : b.modifyClass c fun d => { d with fields := d.fields ++ [⟨b.fields.size⟩] } with
  | error e => rw [hc] at hb; cases hb
  | ok b₁ =>
    rw [hc] at hb
    cases hb
    have h₁ : b₁.Declares := h.modifyClass hc fun _ => rfl
    exact h₁

theorem Declares.pushMethod {decl : MethodDecl} {m : MethodId} (h : b.Declares)
    (hb : b.pushMethod decl = .ok (m, b')) : b'.Declares := by
  unfold Builder.pushMethod at hb
  dsimp only at hb
  cases hc : b.modifyClass decl.cls fun d => d.declare decl.subsignature ⟨b.methods.size⟩ with
  | error e => rw [hc] at hb; cases hb
  | ok b₁ =>
    rw [hc] at hb
    cases hb
    rw [modifyClass_ok hc]
    intro d hd e he
    simp only [Array.size_push]
    change d ∈ b.classes.modify decl.cls.index fun d =>
      d.declare decl.subsignature ⟨b.methods.size⟩ at hd
    rcases mem_modify hd with hd | ⟨d₀, hd₀, rfl⟩
    · exact Nat.lt_succ_of_lt (h d hd e he)
    · rcases List.mem_append.mp he with he | he
      · exact Nat.lt_succ_of_lt (h d₀ hd₀ e (List.mem_filter.mp he).1)
      · rw [List.mem_singleton.mp he]
        exact Nat.lt_succ_self _

theorem Built.declares (h : b.Built) : b.Declares := by
  induction h with
  | empty => intro d hd; exact absurd hd (Array.not_mem_empty d)
  | addClass name superclass _ ih => exact ih.pushClass rfl
  | addInterface name supers _ ih => exact ih.pushClass rfl
  | implement _ hb ih =>
    unfold Builder.implement at hb
    exact ih.modifyClass hb fun d => by split <;> rfl
  | setAbstract _ hb ih =>
    unfold Builder.setAbstract at hb
    exact ih.modifyClass hb fun _ => rfl
  | addField _ hb ih => exact ih.addField hb
  | addMethod _ hb ih => exact ih.pushMethod hb
  | addAbstractMethod _ hb ih => exact ih.pushMethod hb
  | setBody _ hb ih =>
    unfold Builder.setBody at hb
    split at hb
    · cases hb
      intro d hd e he
      rw [Array.size_modify]
      exact ih d hd e he
    · cases hb
  | setRoot _ _ ih | addVar _ _ _ _ ih | setEntry _ _ ih => exact ih

/-- Methods belong to classes that exist. -/
def Houses (b : Builder) : Prop := ∀ d ∈ b.methods, d.cls.index < b.classes.size

theorem Houses.modifyClass {c : ClassId} {f : ClassDecl → ClassDecl} (h : b.Houses)
    (hb : b.modifyClass c f = .ok b') : b'.Houses := by
  rw [modifyClass_ok hb]
  intro d hd
  rw [Array.size_modify]
  exact h d hd

theorem Houses.pushMethod {decl : MethodDecl} {m : MethodId} (h : b.Houses)
    (hb : b.pushMethod decl = .ok (m, b')) : b'.Houses := by
  obtain ⟨b₁, hc, hb⟩ := bind_ok_iff.mp hb
  cases hb
  have hlt : decl.cls.index < b₁.classes.size := by
    have hold : decl.cls.index < b.classes.size := by
      unfold Builder.modifyClass at hc
      split at hc
      · assumption
      · cases hc
    rw [modifyClass_ok hc, Array.size_modify]
    exact hold
  intro d hd
  rcases Array.mem_push.mp hd with hd | rfl
  · exact h.modifyClass hc d hd
  · exact hlt

theorem Built.houses (h : b.Built) : b.Houses := by
  induction h with
  | empty => intro d hd; exact absurd hd (Array.not_mem_empty d)
  | addClass _ _ _ ih | addInterface _ _ _ ih =>
    intro d hd
    show d.cls.index < (Array.push _ _).size
    rw [Array.size_push]
    exact Nat.lt_succ_of_lt (ih d hd)
  | implement _ hb ih | setAbstract _ hb ih => exact ih.modifyClass hb
  | addField _ hb ih =>
    obtain ⟨b₁, hc, hb⟩ := bind_ok_iff.mp hb
    cases hb
    have h₁ : b₁.Houses := ih.modifyClass hc
    exact h₁
  | addMethod _ hb ih | addAbstractMethod _ hb ih => exact ih.pushMethod hb
  | setBody _ hb ih =>
    unfold Builder.setBody at hb
    split at hb
    · cases hb
      intro d hd
      dsimp only at hd
      rcases mem_modify hd with hd | ⟨d₀, hd₀, rfl⟩
      · exact ih d hd
      · exact ih d₀ hd₀
    · cases hb
  | setRoot _ _ ih | addVar _ _ _ _ ih | setEntry _ _ ih => exact ih

theorem checkMethods_ok {ms : List (MethodDecl × Nat)} (h : b.checkMethods ms = .ok ())
    {decl : MethodDecl} {i : Nat} (hm : (decl, i) ∈ ms) : b.methodFault? ⟨i⟩ decl = none := by
  induction ms with
  | nil => cases hm
  | cons x rest ih =>
    obtain ⟨decl₀, j⟩ := x
    rw [checkMethods] at h
    split at h
    · next hx =>
      rcases List.mem_cons.mp hm with heq | hm
      · cases heq
        exact hx
      · exact ih h hm
    · cases hs : b.program.getSignature ⟨j⟩ <;> rw [hs] at h <;> cases h

theorem build_ok {p : Program} (h : b.build = .ok p) :
    p = b.program ∧ b.checkMethods b.methods.toList.zipIdx = .ok () ∧ b.checkEntry = .ok () := by
  unfold build at h
  cases hm : b.checkMethods b.methods.toList.zipIdx with
  | error e => rw [hm] at h; cases h
  | ok u =>
    cases he : b.checkEntry with
    | error e => rw [hm, he] at h; cases h
    | ok w =>
      rw [hm, he] at h
      exact ⟨(Except.ok.inj h).symm, rfl, rfl⟩

end Builder

namespace Program

variable {p : Program} {m : MethodId} {b : Body} {c : ClassId}

theorem body?_eq_some_iff : p.body? m = some b ↔ ∃ d, p.method? m = some d ∧ d.body = some b :=
  Option.bind_eq_some_iff

theorem stmt?_eq_some_iff {site : StmtRef} {s : Stmt} :
    p.stmt? site = some s ↔ ∃ b, p.body? site.method = some b ∧ b.stmt? site.index = some s :=
  Option.bind_eq_some_iff

theorem lt_of_getMethod {d : MethodDecl} (h : p.getMethod m = .ok d) :
    m.index < p.methods.size := by
  refine Nat.lt_of_not_le fun hge => ?_
  have hnone : p.method? m = none := Array.getElem?_eq_none hge
  unfold getMethod at h
  rw [hnone] at h
  cases h

theorem getBody_eq (hm : m.index < p.methods.size) : p.getBody m = .ok (p.body? m) := by
  simp only [getBody, getMethod, body?, method?, Array.getElem?_eq_getElem hm]
  rfl

theorem getBody_ok_iff {body : Option Body} :
    p.getBody m = .ok body ↔ m.index < p.methods.size ∧ p.body? m = body := by
  constructor
  · intro h
    obtain ⟨_, hdecl, _⟩ := bind_ok_iff.mp h
    have hlt := lt_of_getMethod hdecl
    rw [getBody_eq hlt] at h
    exact ⟨hlt, Except.ok.inj h⟩
  · intro ⟨hlt, hbody⟩
    rw [getBody_eq hlt, hbody]

theorem lt_of_body? (h : p.body? m = some b) : m.index < p.methods.size := by
  obtain ⟨d, hd, _⟩ := body?_eq_some_iff.mp h
  exact (Array.getElem?_eq_some_iff.mp hd).1

theorem lt_of_stmt? {site : StmtRef} {s : Stmt} (h : p.stmt? site = some s) :
    site.method.index < p.methods.size := by
  obtain ⟨b, hb, _⟩ := stmt?_eq_some_iff.mp h
  exact lt_of_body? hb

theorem mem_indexed {i : Nat} {s : Stmt} : (i, s) ∈ b.indexed ↔ b.stmt? i = some s := by
  simp only [Body.indexed, Body.stmt?, List.mem_map, Prod.exists, Prod.mk.injEq]
  constructor
  · intro hr
    obtain ⟨s', i', h, rfl, rfl⟩ := hr
    simpa [List.mem_zipIdx_iff_getElem?] using h
  · intro h
    exact ⟨s, i, by simpa [List.mem_zipIdx_iff_getElem?] using h, rfl, rfl⟩

theorem Owns.lt {v : VarId} (h : p.Owns m v) : v.index < p.vars.size := by
  obtain ⟨d, hd, _⟩ := h
  exact (Array.getElem?_eq_some_iff.mp hd).1

theorem Owns.unique {m' : MethodId} {v : VarId} (h : p.Owns m v) (h' : p.Owns m' v) : m = m' := by
  obtain ⟨d, hd, rfl⟩ := h
  obtain ⟨d', hd', rfl⟩ := h'
  rw [hd] at hd'
  cases hd'
  rfl

namespace Accepted

/-- The method table of a class names methods of the program. -/
theorem declared_lt {d : ClassDecl} {s : String} (h : p.Accepted) (hc : p.class? c = some d)
    (hm : d.declared? s = some m) : m.index < p.methods.size := by
  obtain ⟨b, hb, hbuild⟩ := h
  obtain ⟨rfl, _, _⟩ := Builder.build_ok hbuild
  refine hb.declares d (Array.mem_of_getElem? hc) (s, m) ?_
  obtain ⟨l₁, l₂, hl, _⟩ := List.lookup_eq_some_iff.mp hm
  rw [hl]
  simp

theorem entry_lt (h : p.Accepted) (he : p.entry = some m) : m.index < p.methods.size := by
  obtain ⟨b, _, hbuild⟩ := h
  obtain ⟨rfl, _, hentry⟩ := Builder.build_ok hbuild
  unfold Builder.checkEntry at hentry
  change b.entry = some m at he
  rw [he] at hentry
  simp only at hentry
  split at hentry
  · assumption
  · cases hentry

theorem stmtFault (h : p.Accepted) {i : Nat} {s : Stmt} (hb : p.body? m = some b)
    (hs : b.stmt? i = some s) :
    (∀ t ∈ s.jumpTargets, t < b.size) ∧ ∀ v, s.def? = some v ∨ v ∈ s.uses → p.Owns m v := by
  obtain ⟨bld, _, hbuild⟩ := h
  obtain ⟨rfl, hcheck, _⟩ := Builder.build_ok hbuild
  obtain ⟨decl, hdecl, hbody⟩ := body?_eq_some_iff.mp hb
  have hmem : (decl, m.index) ∈ bld.methods.toList.zipIdx := by
    rw [List.mem_zipIdx_iff_getElem?]
    change bld.methods[m.index]? = some decl at hdecl
    simpa using hdecl
  have hfault := Builder.checkMethods_ok hcheck hmem
  simp only [Builder.methodFault?, hbody, Option.bind_some, Builder.bodyFault?] at hfault
  split at hfault
  · cases hfault
  · split at hfault
    · cases hfault
    · have hstmt := List.findSome?_eq_none_iff.mp hfault (i, s) (mem_indexed.mpr hs)
      simp only [Builder.stmtFault?] at hstmt
      split at hstmt
      · cases hstmt
      · next hjump =>
        rw [Option.map_eq_none_iff, List.find?_eq_none] at hstmt
        rw [List.find?_eq_none] at hjump
        refine ⟨fun t ht => ?_, fun v hv => ?_⟩
        · have := hjump t ht
          simp at this
          omega
        · have hv' : v ∈ s.def?.toList ++ s.uses := by
            rcases hv with hv | hv
            · simp [hv]
            · simp [hv]
          have howns := hstmt v hv'
          simp only [Builder.owns, Bool.not_eq_true', Bool.not_eq_false, Option.any_eq_true,
            beq_iff_eq] at howns
          exact howns

theorem owns_def (h : p.Accepted) {site : StmtRef} {s : Stmt} {v : VarId}
    (hs : p.stmt? site = some s) (hv : s.def? = some v) : p.Owns site.method v := by
  obtain ⟨b, hb, hs⟩ := stmt?_eq_some_iff.mp hs
  exact (h.stmtFault hb hs).2 v (.inl hv)

theorem owns_use (h : p.Accepted) {site : StmtRef} {s : Stmt} {v : VarId}
    (hs : p.stmt? site = some s) (hv : v ∈ s.uses) : p.Owns site.method v := by
  obtain ⟨b, hb, hs⟩ := stmt?_eq_some_iff.mp hs
  exact (h.stmtFault hb hs).2 v (.inr hv)

end Accepted
end Program

/-! ### A proper program

`main(n)` runs `b = new B; a = b.id(b); i = 1; if (i == i) goto 5; i = 2; c = i + n; n = n + i;
if (n < i) goto 6; return`, where `B` extends `A` and overrides `id`. -/

def Body.identity (this x : VarId) : Body := ⟨some this, [x], #[.ret (some x)]⟩

def Body.sample : Body where
  this := none
  params := [⟨2⟩]
  stmts := #[.assign ⟨3⟩ (.new (.cls ⟨1⟩)),
    .invoke (some ⟨4⟩) ⟨.virtual, ⟨⟨0⟩, "A id(A)"⟩, some ⟨3⟩, [⟨3⟩]⟩,
    .assign ⟨7⟩ (.int 1),
    .branch ⟨.eq, ⟨7⟩, ⟨7⟩⟩ 5,
    .assign ⟨7⟩ (.int 2),
    .assign ⟨8⟩ (.binary ⟨.add, ⟨7⟩, ⟨2⟩⟩),
    .assign ⟨2⟩ (.binary ⟨.add, ⟨2⟩, ⟨7⟩⟩),
    .branch ⟨.lt, ⟨2⟩, ⟨7⟩⟩ 6,
    .ret none]

namespace Builder

def sample : Builder where
  classes := #[⟨"A", none, [], false, false, [("A id(A)", ⟨0⟩), ("void main(int)", ⟨1⟩)], []⟩,
    ⟨"B", some ⟨0⟩, [], false, false, [("A id(A)", ⟨2⟩)], []⟩]
  fields := #[]
  methods := #[⟨"A id(A)", ⟨0⟩, false, false, some (.identity ⟨0⟩ ⟨1⟩)⟩,
    ⟨"void main(int)", ⟨0⟩, true, false, some .sample⟩,
    ⟨"A id(A)", ⟨1⟩, false, false, some (.identity ⟨5⟩ ⟨6⟩)⟩]
  vars := #[⟨"this", .cls ⟨0⟩, ⟨0⟩⟩, ⟨"x", .cls ⟨0⟩, ⟨0⟩⟩, ⟨"n", .int, ⟨1⟩⟩, ⟨"b", .cls ⟨1⟩, ⟨1⟩⟩,
    ⟨"a", .cls ⟨0⟩, ⟨1⟩⟩, ⟨"this", .cls ⟨1⟩, ⟨2⟩⟩, ⟨"x", .cls ⟨0⟩, ⟨2⟩⟩, ⟨"i", .int, ⟨1⟩⟩,
    ⟨"c", .int, ⟨1⟩⟩]
  entry := some ⟨1⟩
  root := none

theorem built_sample : sample.Built := by
  have h₁ := ((Built.empty.addClass "A" none).addClass "B" (some ⟨0⟩)).addMethod
    (rfl : Builder.addMethod _ ⟨0⟩ "A id(A)" false = .ok (_, _))
  have h₂ := h₁.addMethod (rfl : Builder.addMethod _ ⟨0⟩ "void main(int)" true = .ok (_, _))
  have h₃ := h₂.addMethod (rfl : Builder.addMethod _ ⟨1⟩ "A id(A)" false = .ok (_, _))
  have h₄ := ((h₃.addVar ⟨0⟩ "this" (.cls ⟨0⟩)).addVar ⟨0⟩ "x" (.cls ⟨0⟩)).addVar ⟨1⟩ "n" .int
  have h₅ := (h₄.addVar ⟨1⟩ "b" (.cls ⟨1⟩)).addVar ⟨1⟩ "a" (.cls ⟨0⟩)
  have h₆ := (h₅.addVar ⟨2⟩ "this" (.cls ⟨1⟩)).addVar ⟨2⟩ "x" (.cls ⟨0⟩)
  have h₇ := (h₆.addVar ⟨1⟩ "i" .int).addVar ⟨1⟩ "c" .int
  have h₈ := h₇.setBody (rfl : Builder.setBody _ ⟨0⟩ (.identity ⟨0⟩ ⟨1⟩) = .ok _)
  have h₉ := h₈.setBody (rfl : Builder.setBody _ ⟨1⟩ .sample = .ok _)
  have h₁₀ := h₉.setBody (rfl : Builder.setBody _ ⟨2⟩ (.identity ⟨5⟩ ⟨6⟩) = .ok _)
  exact h₁₀.setEntry ⟨1⟩

end Builder

namespace Program

def sample : Program := Builder.sample.program

theorem accepted_sample : sample.Accepted := ⟨_, Builder.built_sample, rfl⟩

theorem body?_sample {m : MethodId} {b : Body} (h : sample.body? m = some b) :
    m = ⟨0⟩ ∧ b = .identity ⟨0⟩ ⟨1⟩ ∨ m = ⟨1⟩ ∧ b = .sample ∨
      m = ⟨2⟩ ∧ b = .identity ⟨5⟩ ⟨6⟩ := by
  obtain ⟨_ | _ | _ | i⟩ := m
  · exact .inl ⟨rfl, (Option.some.inj h).symm⟩
  · exact .inr (.inl ⟨rfl, (Option.some.inj h).symm⟩)
  · exact .inr (.inr ⟨rfl, (Option.some.inj h).symm⟩)
  · cases h

theorem stmt_sample {P : Stmt → Prop} {site : StmtRef} {s : Stmt}
    (h : sample.stmt? site = some s) (hret : ∀ v, P (.ret (some v)))
    (hmain : ∀ s ∈ Body.sample.stmts.toList, P s) : P s := by
  obtain ⟨b, hb, hs⟩ := stmt?_eq_some_iff.mp h
  have hmem := Array.mem_of_getElem? hs
  rcases body?_sample hb with ⟨_, rfl⟩ | ⟨_, rfl⟩ | ⟨_, rfl⟩
  · rw [List.mem_singleton.mp (Array.mem_toList_iff.mpr hmem)]
    exact hret _
  · exact hmain s (Array.mem_toList_iff.mpr hmem)
  · rw [List.mem_singleton.mp (Array.mem_toList_iff.mpr hmem)]
    exact hret _

theorem binary_sample {i : Nat} {x : VarId} {c : Binary}
    (h : Body.sample.stmt? i = some (.assign x (.binary c))) :
    x = ⟨8⟩ ∧ c = ⟨.add, ⟨7⟩, ⟨2⟩⟩ ∨ x = ⟨2⟩ ∧ c = ⟨.add, ⟨2⟩, ⟨7⟩⟩ := by
  have hmem := Array.mem_toList_iff.mpr (Array.mem_of_getElem? h)
  simpa [Body.sample] using hmem

theorem proper_sample : sample.Proper where
  accepted := accepted_sample
  classes := by
    refine ⟨?_, ?_, fun h => (by cases h), ?_, ?_⟩
    · rintro ⟨_ | _ | i⟩ d s hd hs
      · cases hd; cases hs
      · cases hd; cases hs; decide
      · cases hd
    · rintro ⟨_ | _ | i⟩ d s hd hs
      · cases hd; cases hs
      · cases hd; cases hs
      · cases hd
    · intro site result call hs
      refine stmt_sample (P := fun s => ∀ result call, s = .invoke result call →
        sample.HasClass call.target.cls) hs (fun v _ _ he => by cases he) (fun s hs => ?_)
        result call rfl
      have hcalls : (Body.sample.stmts.toList.all fun s => s.call?.all fun c =>
        decide (sample.HasClass c.target.cls)) = true := by decide
      rintro result call rfl
      simpa [Stmt.call?] using List.all_eq_true.mp hcalls _ hs
    · intro site x c hs
      refine stmt_sample (P := fun s => ∀ x c, s = .assign x (.new (.cls c)) →
        sample.HasClass c) hs (fun v _ _ he => by cases he) (fun s hs => ?_) x c rfl
      rintro x c rfl
      obtain ⟨-, rfl⟩ : x = ⟨3⟩ ∧ c = ⟨1⟩ := by simpa [Body.sample] using hs
      decide
  this := by
    intro m b v hb hv
    rcases body?_sample hb with ⟨rfl, rfl⟩ | ⟨rfl, rfl⟩ | ⟨rfl, rfl⟩ <;> cases hv
    · exact ⟨_, rfl, rfl⟩
    · exact ⟨_, rfl, rfl⟩
  params := by
    intro m b hb v hv
    rcases body?_sample hb with ⟨rfl, rfl⟩ | ⟨rfl, rfl⟩ | ⟨rfl, rfl⟩ <;>
      rw [List.mem_singleton.mp hv] <;> exact ⟨_, rfl, rfl⟩

end Program
end ProgramAnalysis
