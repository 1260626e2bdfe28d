import PhpGraft.Proofs.Retention

/-!
Runs of operations of both kinds. All that they change is the list of children that the class stands
in and the end of the class.
-/
namespace PhpGraft

namespace Node

theorem modifyAt_append (f : Node → Node) (path path' : List Nat) (n : Node) :
    modifyAt f (path ++ path') n = modifyAt (modifyAt f path') path n := by
  induction path generalizing n with
  | nil => rfl
  | cons i path ih =>
    rw [List.cons_append, modifyAt, modifyAt, funext ih]

theorem withChildren_self (n : Node) : n.withChildren (fun _ => n.children) = n := by
  cases n
  rfl

theorem modify_append_cons {α : Type} (f : α → α) (before : List α) (a : α) (behind : List α) :
    (before ++ a :: behind).modify before.length f = before ++ f a :: behind := by
  induction before with
  | nil => rfl
  | cons b before ih => exact congrArg (b :: ·) ih

theorem split_of_getElem? {α : Type} {as : List α} {i : Nat} {a : α} (h : as[i]? = some a) :
    ∃ before behind, as = before ++ a :: behind ∧ before.length = i := by
  obtain ⟨hlt, rfl⟩ := List.getElem?_eq_some_iff.1 h
  refine ⟨as.take i, as.drop (i + 1), ?_, List.length_take_of_le (Nat.le_of_lt hlt)⟩
  rw [← List.drop_eq_getElem_cons hlt, List.take_append_drop]

theorem NewImport.mono {next limit limit' : Nat} {n : Node} (h : NewImport next limit n)
    (hl : limit ≤ limit') : NewImport next limit' n := by
  obtain ⟨id, name, hle, hlt, hq, rfl⟩ := h
  exact ⟨id, name, hle, by omega, hq, rfl⟩

end Node

namespace Source.ClassScope

variable {s : Source} (sc : s.ClassScope) {P : Method → Prop} {x : Node}

/-- The class with methods behind the members it was read with. -/
structure Extended (P : Method → Prop) (x : Node) : Prop where
  id : x.id = sc.cls.id
  decl : x.decl = sc.cls.decl
  anchor : x.origin.anchor? = sc.cls.origin.anchor?
  children : ∃ new, x.children = sc.cls.children ++ new ∧
    ∀ n ∈ new, ∃ id d, n = ⟨id, .synthesized, .method d, []⟩ ∧ P d

/-- A tree as it was read but for the class and what stands around it in its scope. -/
structure Edited (P : Method → Prop) (t : Tree) (before : List Node) (x : Node)
    (behind : List Node) : Prop where
  root : t.root = s.tree.root.modifyAt (.withChildren fun _ => before ++ x :: behind) sc.path
  edited : t.root.classScope? = some (sc.path, before.length)
  cls : sc.Extended P x
  last : ∀ n ∈ behind, n.isClass = false
  others : ∀ n ∈ before ++ behind, n ∈ sc.node.children ∨ n.NewImport s.tree.next t.next
  next : s.tree.next ≤ t.next

variable {sc} {t : Tree} {n : Node} {before behind : List Node} {d : Method} {next : Nat}

theorem Extended.isClass (h : sc.Extended P x) : x.isClass = true := by
  rw [Node.isClass, h.decl]
  exact sc.isClass

theorem Extended.detach (h : sc.Extended P x) : sc.Extended P x.detach :=
  ⟨h.id, h.decl, (Node.anchor?_detach x).trans h.anchor, h.children⟩

theorem Extended.append (h : sc.Extended P x) (hd : P d) (next : Nat) :
    sc.Extended P (x.withChildren (· ++ Node.ofMethods next [d])) := by
  obtain ⟨new, hchildren, hnew⟩ := h.children
  refine ⟨h.id, h.decl, h.anchor, new ++ Node.ofMethods next [d], ?_, fun n hn => ?_⟩
  · rw [Node.withChildren, hchildren, List.append_assoc]
  · rcases List.mem_append.1 hn with hn | hn
    · exact hnew n hn
    · exact ⟨next, d, List.mem_singleton.1 hn, hd⟩

theorem edited_read (sc : s.ClassScope) (P : Method → Prop) :
    sc.Edited P s.tree sc.before sc.cls sc.behind := by
  refine ⟨?_, sc.edited, ⟨rfl, rfl, rfl, [], (List.append_nil _).symm, nofun⟩, sc.last, fun n hn => ?_,
    Nat.le_refl _⟩
  · rw [← sc.split, Node.modifyAt_congr (g := fun n => n) sc.reached (Node.withChildren_self _)]
    exact (Node.modifyAt_id ..).symm
  · rw [sc.split]
    rcases List.mem_append.1 hn with hn | hn <;> simp [hn]

/-- A method goes behind the members of the class. -/
theorem Edited.addMethod (h : sc.Edited P t before x behind) (hd : P d) :
    sc.Edited P ⟨Node.appendAt (sc.path ++ [before.length]) (Node.ofMethods next [d]) t.root,
      t.next + 1⟩ before (x.withChildren (· ++ Node.ofMethods next [d])) behind := by
  refine ⟨?_, (Node.classScope?_congr (Node.outline_appendAt _ h.edited)).trans h.edited,
    h.cls.append hd next, h.last, fun n hn => ?_, Nat.le_succ_of_le h.next⟩
  · simp only [h.root, Node.appendAt, Node.modifyAt_append, Node.modifyAt_modifyAt]
    congr 1
    funext n
    exact congrArg (Node.mk _ _ _) (Node.modify_append_cons ..)
  · exact (h.others n hn).imp_right fun hnew => hnew.mono (Nat.le_succ _)

theorem Edited.at? (h : sc.Edited P t before x behind) :
    t.root.at? sc.path = some (sc.node.withChildren fun _ => before ++ x :: behind) := by
  rw [h.root]
  exact Node.at?_modifyAt sc.reached

/-- Imports gather in front of the other children of the scope. -/
theorem Edited.addImports (h : sc.Edited P t before x behind) {is : List Node} {limit : Nat}
    (his : ∀ m ∈ is, m.isImport = true ∧ (m ∈ before ++ behind ∨ m.NewImport s.tree.next limit))
    (hlimit : t.next ≤ limit) :
    sc.Edited P ⟨t.root.modifyAt (.withChildren fun _ =>
        Node.withImports is before.length (before ++ x :: behind)) sc.path, limit⟩
      (is ++ Node.others before) x.detach (Node.others behind) := by
  have hroot : t.root.modifyAt (.withChildren fun _ =>
      Node.withImports is before.length (before ++ x :: behind)) sc.path =
      t.root.modifyAt (.withChildren (Node.withImports is before.length)) sc.path :=
    Node.modifyAt_congr h.at? rfl
  refine ⟨?_, ?_, h.cls.detach, fun m hm => h.last m ((Node.others_sublist _).subset hm),
    fun m hm => ?_, Nat.le_trans h.next hlimit⟩
  · simp only [h.root, Node.modifyAt_modifyAt, Node.withImports_split, List.append_assoc]
    rfl
  · simp only [hroot]
    exact Node.classScope?_withImports h.edited h.at? rfl h.cls.isClass h.last
      fun m hm => (his m hm).1
  · have hothers : m ∈ before ++ behind → m ∈ sc.node.children ∨ m.NewImport s.tree.next limit :=
      fun hm => (h.others m hm).imp_right fun hnew => hnew.mono hlimit
    rcases List.mem_append.1 hm with hm | hm
    · rcases List.mem_append.1 hm with hm | hm
      · exact (his m hm).2.elim hothers .inr
      · exact hothers (List.mem_append_left _ ((Node.others_sublist _).subset hm))
    · exact hothers (List.mem_append_right _ ((Node.others_sublist _).subset hm))

end Source.ClassScope

namespace Editor

variable {e e' : Editor} {s : Source} {sc : s.ClassScope} {P : Method → Prop}
  {before behind : List Node} {x : Node} {op : Operation} {ops : List Operation}

/-- Operations one after the other. -/
def applyAll (e : Editor) : List Operation → Except Error Editor
  | [] => .ok e
  | op :: ops =>
    match e.apply op with
    | .error fault => .error fault
    | .ok e => e.applyAll ops

/-- What is asked of an operation so that the methods it adds have the property `P`. -/
def Adds (P : Method → Prop) : Operation → Prop
  | .addMethod m => ∀ d, m.method? = .ok d → Name.isIdentifier m.name = true → P d
  | .addImports _ => True

/-- What an operation changes of an edited tree. -/
theorem apply_edited (hw : sc.Edited P e.working before x behind) (hop : Adds P op)
    (h : e.apply op = .ok e') : e'.source = e.source ∧ e'.style = e.style ∧
      ∃ before x behind, sc.Edited P e'.working before x behind := by
  cases op with
  | addMethod m =>
    obtain ⟨scope, classAt, d, hs, hd, hname, rfl⟩ := addMethod_eq h
    obtain ⟨rfl, rfl⟩ := Prod.mk.inj (Option.some.inj (hs.symm.trans hw.edited))
    exact ⟨rfl, rfl, _, _, _, hw.addMethod (hop d hd hname)⟩
  | addImports names =>
    obtain ⟨qs, scope, classAt, n, hqs, hs, hn, rfl⟩ := addImports_eq h
    obtain ⟨rfl, rfl⟩ := Prod.mk.inj (Option.some.inj (hs.symm.trans hw.edited))
    obtain rfl := Option.some.inj (hn.symm.trans hw.at?)
    refine ⟨rfl, rfl, _, _, _, hw.addImports (fun m hm => ?_) (Nat.le_add_right _ _)⟩
    rcases Node.mem_mergeImports.1 hm with hm | hm
    · obtain ⟨hmem, himport⟩ :=
        List.mem_filter.1 ((Node.distinctImports_sublist _ _).subset hm)
      refine ⟨himport, .inl ?_⟩
      have hne : m ≠ x := by
        rintro rfl
        rw [Node.isImport_of_isClass hw.cls.isClass] at himport
        cases himport
      rcases List.mem_append.1 hmem with hmem | hmem
      · exact List.mem_append_left _ hmem
      · exact List.mem_append_right _ ((List.mem_cons.1 hmem).resolve_left hne)
    · obtain ⟨id, name, hle, hlt, hq, rfl⟩ :=
        Node.newImport_of_mem_newImports (isQualified_of_mapM hqs) hm
      exact ⟨rfl, .inr ⟨id, name, Nat.le_trans hw.next hle, hlt, hq, rfl⟩⟩

theorem applyAll_edited (hw : sc.Edited P e.working before x behind) (hops : ∀ op ∈ ops, Adds P op)
    (h : e.applyAll ops = .ok e') : e'.source = e.source ∧ e'.style = e.style ∧
      ∃ before x behind, sc.Edited P e'.working before x behind := by
  induction ops generalizing e before x behind with
  | nil =>
    cases h
    exact ⟨rfl, rfl, _, _, _, hw⟩
  | cons op ops ih =>
    obtain ⟨hop, hops⟩ := List.forall_mem_cons.1 hops
    rw [applyAll] at h
    split at h
    · cases h
    obtain ⟨hsource, hstyle, before, x, behind, hw⟩ := apply_edited hw hop ‹_›
    obtain ⟨hsource', hstyle', hw⟩ := ih hw hops h
    exact ⟨hsource'.trans hsource, hstyle'.trans hstyle, hw⟩

theorem exists_classScope_of_apply (hw : e.working = s.tree) (h : e.apply op = .ok e') :
    ∃ sc : s.ClassScope, sc.Edited P e.working sc.before sc.cls sc.behind := by
  have hscope : ∃ path i, s.tree.root.classScope? = some (path, i) := by
    cases op with
    | addMethod m =>
      obtain ⟨path, i, -, hs, -⟩ := addMethod_eq h
      exact ⟨path, i, hw ▸ hs⟩
    | addImports names =>
      obtain ⟨-, path, i, -, -, hs, -⟩ := addImports_eq h
      exact ⟨path, i, hw ▸ hs⟩
  obtain ⟨path, i, hs⟩ := hscope
  obtain ⟨sc, -, -⟩ := Source.exists_classScope hs
  exact ⟨sc, hw ▸ sc.edited_read P⟩

end Editor
end PhpGraft
