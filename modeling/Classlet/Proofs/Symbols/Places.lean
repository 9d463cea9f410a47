import Classlet.Proofs.Symbols.Declarations
import Classlet.Proofs.Syntax.Replace

/-!
# Where declarations are reported

The reports on the declarations of a program are worked out from the program alone: each is a
`Complaint`, a message together with the way from the root of the tree to the node it is about.  A
repeated name is complained about where it stands for the second time, so once however often it is
repeated (`Text.count_seconds`).

Main statement: `Tree.Pictures.symbolTable_reported`.
-/

namespace Classlet

open Subtree

/-! ### Repeated names and their second places -/

namespace Text

/-- The name stands in the place of the given number for the second time. -/
def isSecond (names : List String) (q : String × Nat) : Bool := (names.take q.2).count q.1 == 1

/-- The repeated names, each with the number of its second place. -/
def seconds (names : List String) : List (String × Nat) := names.zipIdx.filter (isSecond names)

/-- The second places among `names` where `seen` comes before. -/
def secondsAfter (seen names : List String) : List (String × Nat) :=
  (names.zipIdx seen.length).filter (isSecond (seen ++ names))

theorem secondsAfter_nil (names : List String) : secondsAfter [] names = seconds names := rfl

theorem isSecond_append (seen : List String) (name : String) (rest : List String) :
    isSecond (seen ++ name :: rest) (name, seen.length) = (seen.count name == 1) := by
  rw [isSecond, List.take_left]

theorem secondsAfter_cons (seen : List String) (name : String) (rest : List String) :
    secondsAfter seen (name :: rest)
      = (if seen.count name = 1 then [(name, seen.length)] else [])
        ++ secondsAfter (seen ++ [name]) rest := by
  rw [secondsAfter, List.zipIdx_cons, List.filter_cons, isSecond_append, secondsAfter,
    List.append_assoc, List.singleton_append, List.length_append, List.length_singleton]
  by_cases h : seen.count name = 1 <;> simp [h]

theorem count_secondsAfter (name : String) (seen names : List String) :
    ((secondsAfter seen names).map Prod.fst).count name
      = if seen.count name ≤ 1 ∧ 2 ≤ seen.count name + names.count name then 1 else 0 := by
  induction names generalizing seen with
  | nil =>
    rw [if_neg fun h => by simp only [List.count_nil] at h; omega]
    rfl
  | cons other rest ih =>
    rw [secondsAfter_cons, List.map_append, List.count_append, ih]
    by_cases hname : other = name
    · subst hname
      have hseen : (seen ++ [other]).count other = seen.count other + 1 := by simp
      rw [hseen, List.count_cons_self]
      by_cases hone : seen.count other = 1
      · rw [if_pos hone, hone, if_neg (by omega), if_pos (by omega)]
        simp
      · rw [if_neg hone, List.map_nil, List.count_nil, Nat.zero_add]
        exact if_congr (by omega) rfl rfl
    · have hseen : (seen ++ [other]).count name = seen.count name := by simp [hname]
      have hfirst : ((if seen.count other = 1 then [(other, seen.length)] else []).map
          Prod.fst).count name = 0 := by
        split <;> simp [hname]
      rw [hfirst, hseen, Nat.zero_add, List.count_cons_of_ne hname]

/-- **A name that is repeated has one second place**, and no other name has one. -/
theorem count_seconds (name : String) (names : List String) :
    ((seconds names).map Prod.fst).count name = if 2 ≤ names.count name then 1 else 0 := by
  rw [← secondsAfter_nil, count_secondsAfter]
  exact if_congr (by simp) rfl rfl

theorem mem_seconds {names : List String} {q : String × Nat} :
    q ∈ seconds names ↔ names[q.2]? = some q.1 ∧ (names.take q.2).count q.1 = 1 := by
  rw [seconds, List.mem_filter, List.mem_zipIdx_iff_getElem?, isSecond, beq_iff_eq]

theorem map_fst_secondsAfter (seen names : List String) :
    (secondsAfter seen names).map Prod.fst = repeated seen.reverse names := by
  induction names generalizing seen with
  | nil => rfl
  | cons name rest ih =>
    rw [secondsAfter_cons, List.map_append, ih, repeated, List.count_reverse, List.reverse_append,
      List.reverse_singleton, List.singleton_append]
    split <;> rfl

theorem map_fst_seconds (names : List String) :
    (seconds names).map Prod.fst = repeated [] names :=
  map_fst_secondsAfter [] names

theorem repeated_eq_nil_iff {names : List String} : repeated [] names = [] ↔ names.Nodup := by
  rw [← map_fst_seconds, List.nodup_iff_count_le_one, List.eq_nil_iff_forall_not_mem]
  refine forall_congr' fun name => ?_
  rw [← List.count_eq_zero, count_seconds]
  split <;> omega

end Text

/-! ### Complaints -/

/-- What is wrong with a declaration: the way to its node, from the root over the children of the
given numbers, the kind of the node, and the message. -/
structure Complaint where
  path : List Nat
  kind : Kind
  message : String

/-- The complaint about a name in the place of the given number.  The declarations are the children
from number `first` on of the node at `path`. -/
def Complaint.atPlace (path : List Nat) (first : Nat) (kind : String → Kind)
    (message : String → String) (q : String × Nat) : Complaint :=
  ⟨path ++ [first + q.2], kind q.1, message q.1⟩

/-- A complaint about each repeated name, where it is declared for the second time. -/
def Complaint.ofRepeated (path : List Nat) (first : Nat) (kind : String → Kind)
    (message : String → String) (names : List String) : List Complaint :=
  (Text.seconds names).map (atPlace path first kind message)

/-- What is wrong with the declarations of the method at `path`. -/
def MethodDecl.complaints (path : List Nat) (m : MethodDecl) : List Complaint :=
  (if m.returnType.isSome || (m.isStatic && m.name == entryName) then []
    else [⟨path, .methodDecl m.name m.isPublic m.isStatic,
      "Method " ++ Text.quoted m.name ++ " has no return type"⟩])
    ++ Complaint.ofRepeated path m.returnType.toList.length .param
      (Shape.repeatedIn "parameter" m.name) (m.params.map (·.1))
    ++ Complaint.ofRepeated path (m.returnType.toList.length + m.params.length) .varDecl
      (Shape.repeatedIn "local variable" m.name) (m.locals.map (·.1))

/-- What is wrong with the method of the given number in a class at `path`: with what it declares
itself, and with its name.  The methods are children from number `first` on. -/
def MethodDecl.complaintsAt (path : List Nat) (first : Nat) (names : List String)
    (q : MethodDecl × Nat) : List Complaint :=
  q.1.complaints (path ++ [first + q.2])
    ++ if Text.isSecond names (q.1.name, q.2)
      then [⟨path ++ [first + q.2], .methodDecl q.1.name q.1.isPublic q.1.isStatic,
        "Duplicate method " ++ Text.quoted q.1.name⟩]
      else []

/-- What is wrong with the declarations of the class at `path`. -/
def ClassDecl.complaints (path : List Nat) (c : ClassDecl) : List Complaint :=
  Complaint.ofRepeated path 0 .varDecl (fun name => "Duplicate field " ++ Text.quoted name)
      (c.fields.map (·.1))
    ++ c.methods.zipIdx.flatMap
      (MethodDecl.complaintsAt path c.fields.length (c.methods.map (·.name)))

/-! ### Nodes by the way to them -/

/-- The node that is reached from the root over the children of the given numbers. -/
def Tree.nodeAt (t : Tree) (path : List Nat) : Except Halt NodeId := path.foldlM t.child t.root

/-- The report says what the complaint says, at the position of the node it is about. -/
def Complaint.IsReported (t : Tree) (r : Report) (q : Complaint) : Prop :=
  ∃ id p, t.nodeAt q.path = .ok id ∧ t.kind id = .ok q.kind ∧ t.position id = .ok p ∧
    r = .error .semantic p q.message

/-- The tree holds the subtree at the end of the way. -/
def Tree.HoldsAt (t : Tree) (path : List Nat) (b : Subtree) : Prop :=
  t.nodeAt path = .ok b.id ∧ ∃ parent, t.Holds parent b

section Ways

variable {t : Tree} {path : List Nat} {i : NodeId} {k : Kind} {p : Position} {cs : List Subtree}

theorem Tree.HoldsAt.child (h : t.HoldsAt path (.node i k p cs)) {j : Nat} {d : Subtree}
    (hd : cs[j]? = some d) : t.HoldsAt (path ++ [j]) d := by
  obtain ⟨hpath, parent, hb⟩ := h
  refine ⟨?_, some i, hb.child d (List.mem_of_getElem? hd)⟩
  rw [Tree.nodeAt, List.foldlM_append, ← Tree.nodeAt, hpath]
  show [j].foldlM t.child i = _
  rw [List.foldlM_cons, hb.child_eq hd]
  rfl

theorem Tree.HoldsAt.child_append {as : List Subtree} (h : t.HoldsAt path (.node i k p (as ++ cs)))
    {j : Nat} {d : Subtree} (hd : cs[j]? = some d) : t.HoldsAt (path ++ [as.length + j]) d := by
  refine h.child ?_
  rw [List.getElem?_append_right (Nat.le_add_right _ _), Nat.add_sub_cancel_left, hd]

theorem Tree.HoldsAt.isReported (h : t.HoldsAt path (.node i k p cs)) (message : String) :
    Complaint.IsReported t (.error .semantic p message) ⟨path, k, message⟩ := by
  obtain ⟨hpath, parent, hb⟩ := h
  refine ⟨i, p, hpath, hb.kind_eq, ?_, rfl⟩
  rw [Tree.position, Tree.node_eq_ok hb.here]
  rfl

end Ways

/-! ### Reading declarations -/

namespace Shape

/-- How declarations of one sort are written and what each of them declares: the part it is written
as, its name, its value, the complaints about it alone, and the message for a repeated name. -/
structure Form (α β : Type) where
  part : α → Part
  name : α → String
  value : α → β
  complaints : List Nat → α → List Complaint
  message : String → String

/-- What is wrong with the declaration of the given number, where the declarations have the names
`names` and are the children from number `first` on of the node at `path`. -/
def Form.complaintsAt {α β : Type} (F : Form α β) (path : List Nat) (first : Nat)
    (names : List String) (q : α × Nat) : List Complaint :=
  F.complaints (path ++ [first + q.2]) q.1
    ++ if Text.isSecond names (F.name q.1, q.2)
      then [⟨path ++ [first + q.2], (F.part q.1).kind, F.message (F.name q.1)⟩]
      else []

/-- The reader reads each declaration of the form as what it is, and reports what is wrong with
it. -/
def Form.ReadBy {α β : Type} (F : Form α β) (t : Tree)
    (read? : Shape → Option (Except Halt (Declared β))) : Prop :=
  ∀ ⦃path : List Nat⦄ ⦃i : NodeId⦄ ⦃p : Position⦄ ⦃cs : List Subtree⦄ ⦃x : α⦄,
    t.HoldsAt path (.node i (F.part x).kind p cs) → List.Forall₂ Reads cs (F.part x).parts →
      ∃ reports, read? (Subtree.node i (F.part x).kind p cs).toShape
          = some (.ok ⟨F.name x, p, F.value x, reports⟩) ∧
        List.Forall₂ (Complaint.IsReported t) reports (F.complaints path x)

variable {t : Tree} {path : List Nat}

section Forms

variable {α β : Type} {F : Form α β} {read? : Shape → Option (Except Halt (Declared β))}
  {xs : List α} {ds : List Subtree}

/-- Declarations of one form, of which those named in `seen` came before: what they declare, and
the complaints about them. -/
theorem readAll_reported (hF : F.ReadBy t read?) (h : List.Forall₂ Reads ds (xs.map F.part))
    (seen : List String) {first : Nat}
    (hat : ∀ j d, ds[j]? = some d → t.HoldsAt (path ++ [first + (seen.length + j)]) d) :
    ∃ read, readAll read? (ds.map fun d _ => d.toShape) = .ok read ∧
      read.map (·.value) = xs.map F.value ∧
      List.Forall₂ (Complaint.IsReported t) (reportsOn F.message seen.reverse read)
        ((xs.zipIdx seen.length).flatMap
          (F.complaintsAt path first (seen ++ xs.map F.name))) := by
  rw [List.forall₂_map_right_iff] at h
  induction h generalizing seen with
  | nil => exact ⟨[], rfl, rfl, .nil⟩
  | @cons d x ds xs hd _ ih =>
    obtain ⟨i, p, cs, rfl, hcs⟩ := reads_iff.mp hd
    have hhere := hat 0 _ rfl
    obtain ⟨reports, hread, hsaid⟩ := hF hhere hcs
    obtain ⟨more, hrest, hvalues, hmore⟩ := ih (seen ++ [F.name x]) fun j d hd => by
      have hnext := hat (j + 1) d hd
      rwa [List.length_append, List.length_singleton, Nat.add_assoc, Nat.add_comm 1]
    rw [List.append_assoc, List.singleton_append, List.length_append, List.length_singleton,
      List.reverse_append, List.reverse_singleton, List.singleton_append] at hmore
    refine ⟨⟨F.name x, p, F.value x, reports⟩ :: more, ?_, ?_, ?_⟩
    · rw [List.map_cons, readAll_cons_some hread, hrest]
      rfl
    · rw [List.map_cons, List.map_cons, hvalues]
    · rw [reportsOn, List.zipIdx_cons, List.flatMap_cons, Form.complaintsAt, List.map_cons,
        Text.isSecond_append, List.count_reverse]
      refine List.rel_append (List.rel_append hsaid ?_) hmore
      by_cases hone : seen.count (F.name x) = 1
      · rw [if_pos hone, if_pos (beq_iff_eq.mpr hone)]
        exact .cons (hhere.isReported _) .nil
      · rw [if_neg hone, if_neg (by simpa using hone)]
        exact .nil

/-- The declarations of one form among the children of a node, which stand together: what they
declare, and the complaints about them. -/
theorem readSegment_reported (hF : F.ReadBy t read?) {i : NodeId} {k : Kind} {p : Position}
    {before after : List Subtree} (h : List.Forall₂ Reads ds (xs.map F.part))
    (hbefore : ∀ c ∈ before, read? c.toShape = none) (hafter : ∀ c ∈ after, read? c.toShape = none)
    (hat : t.HoldsAt path (.node i k p (before ++ ds ++ after))) :
    ∃ read, readAll read? ((before ++ ds ++ after).map fun c _ => c.toShape) = .ok read ∧
      read.map (·.value) = xs.map F.value ∧
      List.Forall₂ (Complaint.IsReported t) (reportsOn F.message [] read)
        (xs.zipIdx.flatMap (F.complaintsAt path before.length (xs.map F.name))) := by
  rw [List.append_assoc] at hat
  have hplaces : ∀ j d, ds[j]? = some d →
      t.HoldsAt (path ++ [before.length + (([] : List String).length + j)]) d := fun j d hd => by
    rw [List.length_nil, Nat.zero_add]
    exact hat.child_append
      ((List.getElem?_append_left (List.getElem?_eq_some_iff.mp hd).1).trans hd)
  obtain ⟨read, hread, hsaid⟩ := readAll_reported hF h [] hplaces
  refine ⟨read, ?_, hsaid⟩
  rw [← hread]
  simp only [readAll, List.filterMap_map, List.filterMap_append, Function.comp_def]
  rw [List.filterMap_eq_nil_iff.mpr hbefore, List.filterMap_eq_nil_iff.mpr hafter,
    List.append_nil, List.nil_append]

end Forms

/-! #### Variables and parameters -/

section Symbols

variable {select : Kind → Option String} {kind : String → Kind}
  {toPart : String × TypeExpr → Part}

/-- The declarations that are written as the given parts have nodes of the given kind, and `select`
picks them by their names. -/
structure Selects (select : Kind → Option String) (kind : String → Kind)
    (toPart : String × TypeExpr → Part) : Prop where
  select_eq : ∀ name, select (kind name) = some name
  kind_eq : ∀ decl, (toPart decl).kind = kind decl.1
  parts_eq : ∀ decl, (toPart decl).parts = [.type decl.2]

theorem selects_params : Selects Kind.paramName? .param .param :=
  ⟨fun _ => rfl, fun _ => rfl, fun _ => rfl⟩

theorem selects_vars : Selects Kind.varName? .varDecl .varDecl :=
  ⟨fun _ => rfl, fun _ => rfl, fun _ => rfl⟩

/-- Declarations that declare symbols. -/
def Form.symbols (toPart : String × TypeExpr → Part) (message : String → String) :
    Form (String × TypeExpr) Symbol where
  part := toPart
  name := Prod.fst
  value := Symbol.ofDecl
  complaints _ _ := []
  message := message

theorem Form.readBy_symbols (hs : Selects select kind toPart) (message : String → String) :
    (Form.symbols toPart message).ReadBy t (symbol? select) := by
  intro path i p cs decl _ hcs
  simp only [Form.symbols, hs.parts_eq] at hcs
  refine ⟨[], ?_, .nil⟩
  simp only [Form.symbols, hs.kind_eq, toShape_node, symbol?, hs.select_eq, Option.map_some,
    readSymbol_ok hcs]
  rfl

theorem Form.complaints_symbols (hs : Selects select kind toPart) (message : String → String)
    (path : List Nat) (first : Nat) (decls : List (String × TypeExpr)) :
    decls.zipIdx.flatMap ((Form.symbols toPart message).complaintsAt path first (decls.map (·.1)))
      = Complaint.ofRepeated path first kind message (decls.map (·.1)) := by
  rw [Complaint.ofRepeated, Text.seconds, List.zipIdx_map, List.filter_map, List.map_map]
  generalize decls.map (·.1) = names
  induction decls.zipIdx with
  | nil => rfl
  | cons q qs ih =>
    obtain ⟨⟨name, written⟩, place⟩ := q
    rw [List.flatMap_cons, ih, List.filter_cons, Form.complaintsAt]
    by_cases hsecond : Text.isSecond names (name, place) = true
    · simp [Form.symbols, hsecond, hs.kind_eq, Complaint.atPlace]
    · simp [Form.symbols, hsecond]

/-- The variables or the parameters among the children of a node: the symbols they declare, and
the complaints about repeated names. -/
theorem readSymbols_reported (hs : Selects select kind toPart) (message : String → String)
    {decls : List (String × TypeExpr)} {i : NodeId} {k : Kind} {p : Position}
    {before ds after : List Subtree} (h : List.Forall₂ Reads ds (decls.map toPart))
    (hbefore : ∀ c ∈ before, select c.kind = none) (hafter : ∀ c ∈ after, select c.kind = none)
    (hat : t.HoldsAt path (.node i k p (before ++ ds ++ after))) :
    ∃ reports, readSymbols select message [] ((before ++ ds ++ after).map fun c _ => c.toShape)
        = .ok (decls.map Symbol.ofDecl, reports) ∧
      List.Forall₂ (Complaint.IsReported t) reports
        (Complaint.ofRepeated path before.length kind message (decls.map (·.1))) := by
  have hnone : ∀ c : Subtree, select c.kind = none → symbol? select c.toShape = none := by
    rintro ⟨i, k, p, cs⟩ hc
    rw [kind_node] at hc
    rw [toShape_node, symbol?, hc, Option.map_none]
  obtain ⟨read, hread, hvalues, hsaid⟩ := readSegment_reported (Form.readBy_symbols hs message) h
    (fun c hc => hnone c (hbefore c hc)) (fun c hc => hnone c (hafter c hc)) hat
  refine ⟨reportsOn message [] read, ?_, ?_⟩
  · rw [readSymbols_eq, hread]
    exact congrArg (fun values => Except.ok (values, _)) hvalues
  · rw [← Form.complaints_symbols hs]
    exact hsaid

end Symbols

/-! #### Methods -/

theorem unselected {α : Type} {select : Kind → Option String} {toPart : α → Part}
    {cs : List Subtree} {as : List α} (h : List.Forall₂ Reads cs (as.map toPart))
    (hnone : ∀ a, select (toPart a).kind = none) : ∀ c ∈ cs, select c.kind = none := fun c hc => by
  obtain ⟨a, -, ha⟩ := forall₂_of_mem_left (List.forall₂_map_right_iff.mp h) hc
  rw [ha.kind_eq, hnone]

/-- **The signature of a method, and the complaints about it.** -/
theorem readSignature_reported {m : MethodDecl} {i : NodeId} {p : Position}
    {cs : List Subtree} (h : List.Forall₂ Reads cs m.parts)
    (hat : t.HoldsAt path (.node i (.methodDecl m.name m.isPublic m.isStatic) p cs)) :
    ∃ reports, readSignature m.name m.isPublic m.isStatic p (cs.map fun c _ => c.toShape)
        = .ok (.ofDecl m, reports) ∧
      List.Forall₂ (Complaint.IsReported t) reports (m.complaints path) := by
  have htype := lastType?_ok h
  obtain ⟨front, bs, rfl, hfront, hbs⟩ := forall₂_append_inv h
  obtain ⟨front, ls, rfl, hfront, hls⟩ := forall₂_append_inv hfront
  obtain ⟨rs, ps, rfl, hrs, hps⟩ := forall₂_append_inv hfront
  have hstmts : ∀ select : Kind → Option String, select = Kind.paramName? ∨ select = Kind.varName? →
      ∀ c ∈ bs, select c.kind = none := fun select hsel =>
    unselected hbs fun s => by rcases hsel with rfl | rfl <;> cases s <;> rfl
  obtain ⟨rp, hparams, hparamsSaid⟩ := readSymbols_reported selects_params
    (repeatedIn "parameter" m.name) hps (unselected hrs fun _ => rfl)
    (List.forall_mem_append.mpr ⟨unselected hls fun _ => rfl, hstmts _ (.inl rfl)⟩)
    (by rwa [← List.append_assoc])
  obtain ⟨rl, hlocals, hlocalsSaid⟩ := readSymbols_reported selects_vars
    (repeatedIn "local variable" m.name) hls
    (List.forall_mem_append.mpr ⟨unselected hrs fun _ => rfl, unselected hps fun _ => rfl⟩)
    (hstmts _ (.inr rfl)) hat
  rw [← List.append_assoc] at hparams
  have hlen : rs.length = m.returnType.toList.length := by
    rw [hrs.length_eq, List.length_map]
  have hlen' : (rs ++ ps).length = m.returnType.toList.length + m.params.length := by
    rw [List.length_append, hlen, hps.length_eq, List.length_map]
  rw [hlen] at hparamsSaid
  rw [hlen'] at hlocalsSaid
  rw [m.filterMap_parts_type?] at htype
  rw [readSignature, checkLinks_ok, hparams, hlocals, htype, MethodDecl.complaints,
    Signature.ofDecl]
  cases hret : m.returnType with
  | some ty =>
    rw [hret] at hparamsSaid hlocalsSaid
    exact ⟨_, rfl, List.rel_append (List.rel_append .nil hparamsSaid) hlocalsSaid⟩
  | none =>
    rw [hret] at hparamsSaid hlocalsSaid
    simp only [Option.toList_none, List.getLast?_nil, Option.map_none, Option.isSome_none,
      Bool.false_or]
    cases m.isStatic && m.name == entryName with
    | true => exact ⟨_, rfl, List.rel_append (List.rel_append .nil hparamsSaid) hlocalsSaid⟩
    | false =>
      exact ⟨_, rfl, List.rel_append
        (List.rel_append (.cons (hat.isReported _) .nil) hparamsSaid) hlocalsSaid⟩

/-- Declarations of methods, with the complaints of `MethodDecl.complaintsAt`. -/
def Form.methods : Form MethodDecl Signature where
  part := .method
  name := (·.name)
  value := .ofDecl
  complaints path m := m.complaints path
  message name := "Duplicate method " ++ Text.quoted name

theorem Form.readBy_methods : Form.methods.ReadBy t signature? := by
  intro path i p cs m hat hcs
  obtain ⟨reports, hread, hsaid⟩ := readSignature_reported hcs hat
  refine ⟨reports, ?_, hsaid⟩
  rw [toShape_node]
  show some (readSignature m.name m.isPublic m.isStatic p _ >>= _) = _
  rw [hread]
  rfl

theorem readSignatures_reported {methods : List MethodDecl} {fields : List (String × TypeExpr)}
    {i : NodeId} {k : Kind} {p : Position} {fs ms : List Subtree}
    (hfs : List.Forall₂ Reads fs (fields.map .varDecl))
    (hms : List.Forall₂ Reads ms (methods.map .method))
    (hat : t.HoldsAt path (.node i k p (fs ++ ms))) :
    ∃ reports, readSignatures [] ((fs ++ ms).map fun c _ => c.toShape)
        = .ok (methods.map .ofDecl, reports) ∧
      List.Forall₂ (Complaint.IsReported t) reports
        (methods.zipIdx.flatMap
          (MethodDecl.complaintsAt path fields.length (methods.map (·.name)))) := by
  have hnone : ∀ c ∈ fs, signature? c.toShape = none := fun c hc => by
    obtain ⟨decl, -, hdecl⟩ := forall₂_of_mem_left (List.forall₂_map_right_iff.mp hfs) hc
    obtain ⟨i, p, cs, rfl, -⟩ := reads_iff.mp hdecl
    rfl
  rw [← List.append_nil (fs ++ ms)] at hat
  obtain ⟨read, hread, hvalues, hsaid⟩ := readSegment_reported Form.readBy_methods hms hnone
    (List.forall_mem_nil _) hat
  rw [List.append_nil] at hread
  rw [hfs.length_eq, List.length_map] at hsaid
  refine ⟨_, ?_, hsaid⟩
  rw [readSignatures_eq, hread]
  exact congrArg (fun values => Except.ok (values, _)) hvalues

end Shape

/-! ### The table of a program -/

theorem Tree.Pictures.holdsAt_firstClass {t : Tree} {program : Program} {c : ClassDecl}
    {r i : NodeId} {pos p : Position} {is fs ms after : List Subtree}
    (h : t.Pictures program (.node r .program pos
      (is ++ .node i (.classDecl c.name c.superclass) p (fs ++ ms) :: after)))
    (hfs : List.Forall₂ Reads fs (c.fields.map .varDecl)) :
    t.HoldsAt [is.length] (.node i (.classDecl c.name c.superclass) p (fs ++ ms)) ∧
      ∀ k d, ms[k]? = some d → t.HoldsAt [is.length, c.fields.length + k] d := by
  have hroot : t.HoldsAt [] (.node r .program pos
      (is ++ .node i (.classDecl c.name c.superclass) p (fs ++ ms) :: after)) :=
    ⟨congrArg Except.ok h.root.symm, none, h.holds⟩
  have hclass := hroot.child_append (j := 0) rfl
  refine ⟨hclass, fun k d hd => ?_⟩
  have hlen : c.fields.length = fs.length := by rw [hfs.length_eq, List.length_map]
  rw [hlen]
  exact hclass.child_append hd

/-- **The table of a program that has a class, and the reports on its declarations.**  The table
lists what the program declares; there is one report for each complaint, in their order. -/
theorem Tree.Pictures.symbolTable_reported {t : Tree} {b : Subtree} {imports : List String}
    {c : ClassDecl} {rest : List ClassDecl} (h : t.Pictures ⟨imports, c :: rest⟩ b) :
    ∃ reports, t.symbolTable = .ok (.ofDecls imports c, reports) ∧
      List.Forall₂ (Complaint.IsReported t) reports (c.complaints [imports.length]) := by
  obtain ⟨r, pos, is, i, p, fs, ms, after, rfl, his, hfs, hms, -⟩ := h.exists_firstClass
  have hlen : is.length = imports.length := by rw [his.length_eq, List.length_map]
  obtain ⟨hclass, -⟩ := h.holdsAt_firstClass hfs
  rw [hlen] at hclass
  obtain ⟨rf, hfields, hfieldsSaid⟩ := Shape.readSymbols_reported Shape.selects_vars
    (fun name => "Duplicate field " ++ Text.quoted name) hfs (List.forall_mem_nil _)
    (Shape.unselected hms fun _ => rfl) hclass
  obtain ⟨rs, hsignatures, hsignaturesSaid⟩ := Shape.readSignatures_reported hfs hms hclass
  rw [List.nil_append] at hfields
  refine ⟨rf ++ rs, ?_, List.rel_append hfieldsSaid hsignaturesSaid⟩
  obtain ⟨_, _, units, hunits, hread⟩ := reads_iff.mp h.reads
  cases hunits
  have himports := Shape.importNames_ok hread
  rw [Tree.symbolTable, h.children_eq]
  show Shape.readTable _ = _
  rw [Shape.readTable, Shape.firstClass_ok his, Shape.checkLinks_ok]
  simp only [bind, Except.bind, pure, Except.pure, Shape.checkLinks_ok, hfields, hsignatures]
  refine congrArg Except.ok (Prod.ext ?_ rfl)
  simp only [SymbolTable.ofDecls, SymbolTable.mk.injEq, true_and]
  refine ⟨?_, ?_, trivial⟩
  · rw [himports]
    exact congrArg _ (Program.filterMap_parts_importDecl? _)
  · rw [List.map_map]
    rfl

/-- **The table of a program that has a class** lists what the class declares. -/
theorem Tree.Pictures.symbolTable_ok {t : Tree} {b : Subtree} {imports : List String}
    {c : ClassDecl} {rest : List ClassDecl} (h : t.Pictures ⟨imports, c :: rest⟩ b) :
    ∃ reports, t.symbolTable = .ok (.ofDecls imports c, reports) :=
  h.symbolTable_reported.imp fun _ => And.left

end Classlet
