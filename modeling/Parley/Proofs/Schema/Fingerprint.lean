/-
The S-expression is a fingerprint of structure. It is the text of a form, a tree that spans have no
part in; the parts of a form that may be missing, and those that may come any number of times, can be
told from what comes after them, so a form stands for one structure only. Hence schemas have the same
S-expression exactly when they have the same structure, and exactly when they are printed the same.
-/
import Parley.Proofs.Grammar.Parts
import Parley.Proofs.Schema.Form
import Parley.Proofs.Schema.Reprint
import Mathlib

namespace Parley

/-! ## Forms -/

mutual

def TypeExpr.form : TypeExpr → Form
  | ⟨name, [], _⟩ => .word name
  | ⟨name, arg :: args, _⟩ => .list (.word name :: arg.form :: TypeExpr.forms args)

def TypeExpr.forms : List TypeExpr → List Form
  | [] => []
  | type :: types => type.form :: TypeExpr.forms types

end

def Expr.form : Expr → Form
  | .path segments => .word (".".intercalate segments)
  | .integer value => .word (toString value.toInt)
  | .string value => .literal value
  | .boolean value => .word (if value then "true" else "false")
  | .not inner => .list [.word "!", inner.form]
  | .binary op left right => .list [.word op.spelling, left.form, right.form]

def Action.forms : Action → List Form
  | .send message => [.word "send", .word message.name]
  | .goto block => [.word "goto", .word block.name]
  | .call function args => .word "call" :: .word function.name :: args.map Expr.form

def Statement.form (s : Statement) : Form :=
  .list (s.action.forms ++ (s.guard.map fun e => Form.list [.word "when", e.form]).toList)

def Actor.form (a : Actor) : Form :=
  .list (.word "actor" :: .word a.name :: (a.role.map fun role => Form.list [.word "role", .literal role]).toList)

def Field.form (f : Field) : Form := .list [.word "field", .word f.name, f.type.form]

def Message.form (m : Message) : Form :=
  .list (.word "message" :: .word m.name :: .word m.sender.name :: .word m.receiver.name :: m.fields.map Field.form)

def Param.form (p : Param) : Form := .list [.word "param", .word p.name, p.type.form]

def Function.form (f : Function) : Form :=
  .list (.word "function" :: .word f.name :: (f.params.map Param.form ++
    .list [.word "returns", f.returns.form] :: (f.description.map Form.literal).toList))

def Block.form (b : Block) : Form :=
  .list (.word "block" :: .word b.name :: ((if b.entry then [.word "entry"] else []) ++ b.statements.map Statement.form))

def Declaration.form : Declaration → Form
  | .actor decl => decl.form
  | .message decl => decl.form
  | .block decl => decl.form
  | .function decl => decl.form

def Transaction.form (tx : Transaction) : Form :=
  .list (.word "transaction" :: .word tx.name :: ((tx.description.map Form.literal).toList ++
    tx.declarations.map Declaration.form))

/-! ### Their texts -/

mutual

theorem TypeExpr.text_form : ∀ type : TypeExpr, type.form.text = type.sexpr
  | ⟨_, [], _⟩ => rfl
  | ⟨_, arg :: args, _⟩ => by
    simp only [form, sexpr, Form.text, Form.texts, TypeExpr.text_form arg, TypeExpr.texts_forms args]

theorem TypeExpr.texts_forms : ∀ types : List TypeExpr, Form.texts (forms types) = sexprs types
  | [] => rfl
  | type :: types => by rw [forms, sexprs, Form.texts, TypeExpr.text_form type, TypeExpr.texts_forms types]

end

theorem Expr.text_form (e : Expr) : e.form.text = e.sexpr := by
  induction e with
  | path | integer | string | boolean => rfl
  | not inner ih => simp only [form, sexpr, Form.text, Form.texts, ih]
  | binary op left right ihl ihr => simp only [form, sexpr, Form.text, Form.texts, ihl, ihr]

theorem Form.text_list (forms : List Form) : (Form.list forms).text = sexprList (forms.map Form.text) := by
  rw [text, texts_eq]

theorem texts_literal (text : Option String) : (text.map Form.literal).toList.map Form.text = literalPart text := by
  cases text <;> rfl

theorem Statement.text_form (s : Statement) : s.form.text = s.sexpr := by
  have haction : s.action.forms.map Form.text = s.action.sexprParts := by
    cases s.action <;> simp [Action.forms, Action.sexprParts, Form.text, Function.comp_def, Expr.text_form]
  rw [form, sexpr, Form.text_list, List.map_append, haction]
  cases s.guard <;> simp [Form.text, Form.texts, Expr.text_form]

theorem Actor.text_form (a : Actor) : a.form.text = a.sexpr := by
  rw [form, sexpr, Form.text_list]
  cases a.role <;> rfl

theorem Message.text_form (m : Message) : m.form.text = m.sexpr := by
  simp [form, sexpr, Form.text_list, Form.text, Function.comp_def, Field.form, TypeExpr.text_form]

theorem Function.text_form (f : Function) : f.form.text = f.sexpr := by
  simp [form, sexpr, Form.text_list, Form.text, Form.texts, Function.comp_def, Param.form, TypeExpr.text_form, texts_literal]

theorem Block.text_form (b : Block) : b.form.text = b.sexpr := by
  rw [form, sexpr, Form.text_list]
  cases b.entry <;> simp [Form.text, Function.comp_def, Statement.text_form]

theorem Declaration.text_form (d : Declaration) : d.form.text = d.sexpr := by
  cases d with
  | actor decl => exact decl.text_form
  | message decl => exact decl.text_form
  | block decl => exact decl.text_form
  | function decl => exact decl.text_form

theorem Transaction.text_form (tx : Transaction) : tx.form.text = tx.sexpr := by
  simp [form, sexpr, Form.text_list, Form.text, Function.comp_def, Declaration.text_form, texts_literal]

theorem Schema.sexpr_eq (s : Schema) : s.sexpr = "\n".intercalate ((s.transactions.map Transaction.form).map Form.text) := by
  simp only [sexpr, List.map_map, Function.comp_def, Transaction.text_form]

/-! ### Without spans -/

mutual

theorem TypeExpr.form_bare : ∀ type : TypeExpr, type.bare.form = type.form
  | ⟨_, [], _⟩ => rfl
  | ⟨_, arg :: args, _⟩ => by rw [bare, bareAll, form, form, TypeExpr.form_bare arg, TypeExpr.forms_bare args]

theorem TypeExpr.forms_bare : ∀ types : List TypeExpr, forms (bareAll types) = forms types
  | [] => rfl
  | type :: types => by rw [bareAll, forms, forms, TypeExpr.form_bare type, TypeExpr.forms_bare types]

end

theorem Statement.form_bare (s : Statement) : s.bare.form = s.form := by
  have haction : ∀ a : Action, a.bare.forms = a.forms := fun a => by cases a <;> rfl
  simp [form, bare, haction]

theorem Message.form_bare (m : Message) : m.bare.form = m.form := by
  simp [form, bare, Reference.bare, Field.form, Field.bare, TypeExpr.form_bare]

theorem Function.form_bare (f : Function) : f.bare.form = f.form := by
  simp [form, bare, Param.form, Param.bare, TypeExpr.form_bare]

theorem Block.form_bare (b : Block) : b.bare.form = b.form := by
  unfold form bare
  simp only [List.map_map, Function.comp_def, Statement.form_bare]

theorem Transaction.form_bare (tx : Transaction) : tx.bare.form = tx.form := by
  have hactor : ∀ a : Actor, a.bare.form = a.form := fun _ => rfl
  simp [form, bare, declarations, Function.comp_def, Declaration.form, hactor, Message.form_bare, Function.form_bare,
    Block.form_bare]

/-! ### Their words -/

theorem IsName.proper {name : String} (h : IsName name) : (Form.word name).Proper := by
  obtain ⟨c, w, hchars, hstarts, -⟩ := h.toList
  refine ⟨by rw [hchars]; exact List.cons_ne_nil _ _, fun d hd => ?_⟩
  exact Form.plain_of_continues (List.all_eq_true.1 h.2.1 d hd)

mutual

theorem TypeExpr.proper_form : ∀ type : TypeExpr, type.WellFormed → type.form.Proper
  | ⟨_, [], _⟩, h => h.1.proper
  | ⟨_, arg :: args, _⟩, h => ⟨h.1.proper, TypeExpr.proper_form arg h.2.1, TypeExpr.allProper_forms args h.2.2⟩

theorem TypeExpr.allProper_forms : ∀ types : List TypeExpr, AllWellFormed types → Form.AllProper (forms types)
  | [], _ => trivial
  | type :: types, h => ⟨TypeExpr.proper_form type h.1, TypeExpr.allProper_forms types h.2⟩

end

theorem mem_dotted {segments : List String} {c : Char} (h : c ∈ (".".intercalate segments).toList) :
    c = '.' ∨ ∃ segment ∈ segments, c ∈ segment.toList := by
  induction segments with
  | nil => simp at h
  | cons first more ih =>
    cases more with
    | nil => exact .inr ⟨first, List.mem_cons_self, by rwa [String.intercalate_singleton] at h⟩
    | cons second more =>
      rw [String.intercalate_cons_cons, String.toList_append, String.toList_append, List.mem_append, List.mem_append] at h
      rcases h with (h | h) | h
      · exact .inr ⟨first, List.mem_cons_self, h⟩
      · exact .inl (List.mem_singleton.1 h)
      · exact (ih h).imp id fun ⟨segment, hmem, hc⟩ => ⟨segment, List.mem_cons_of_mem _ hmem, hc⟩

theorem Expr.proper_form {e : Expr} (h : e.WellFormed) : e.form.Proper := by
  induction e with
  | path segments =>
    obtain ⟨c, w, hchars, -⟩ := toList_dotted h.1 h.2
    refine ⟨by rw [hchars]; exact List.cons_ne_nil _ _, fun d hd => ?_⟩
    rcases mem_dotted hd with rfl | ⟨segment, hmem, hd⟩
    · rfl
    · exact (h.2 segment hmem).proper.2 d hd
  | integer value =>
    obtain ⟨-, c, w, -, hchars, hdigit, -⟩ := Scan.digits_of_integer h
    show _ ≠ [] ∧ _
    rw [hchars]
    exact ⟨List.cons_ne_nil _ _, fun d hd => Form.plain_of_continues (Scan.isDigit_continues (hdigit d hd))⟩
  | string value => trivial
  | boolean value => cases value <;> exact Form.proper_word (by decide)
  | not inner ih => exact ⟨Form.proper_word (by decide), ih h, trivial⟩
  | binary op left right ihl ihr =>
    refine ⟨?_, ihl h.1, ihr h.2, trivial⟩
    cases op <;> exact Form.proper_word (by decide)

namespace Form

theorem allProper_append {forms others : List Form} : AllProper (forms ++ others) ↔ AllProper forms ∧ AllProper others := by
  simp only [allProper_iff, List.forall_mem_append]

theorem allProper_map {α : Type} {f : α → Form} {xs : List α} (h : ∀ x ∈ xs, (f x).Proper) : AllProper (xs.map f) :=
  allProper_iff.2 (List.forall_mem_map.2 h)

theorem allProper_option {α : Type} {f : α → Form} {x? : Option α} (h : ∀ x ∈ x?, (f x).Proper) :
    AllProper (x?.map f).toList := by
  cases x? with
  | none => trivial
  | some x => exact ⟨h x rfl, trivial⟩

end Form

theorem Statement.proper_form {s : Statement} (h : s.WellFormed) : s.form.Proper := by
  obtain ⟨haction, hguard⟩ := h
  refine Form.allProper_append.2 ⟨?_, Form.allProper_option fun e he => ?_⟩
  · generalize s.action = action at haction
    cases action with
    | send message => exact ⟨Form.proper_word (by decide), IsName.proper haction, trivial⟩
    | goto block => exact ⟨Form.proper_word (by decide), IsName.proper haction, trivial⟩
    | call function args =>
      exact ⟨Form.proper_word (by decide), haction.1.proper, Form.allProper_map fun e he => Expr.proper_form (haction.2 e he)⟩
  · exact ⟨Form.proper_word (by decide), Expr.proper_form (hguard e he), trivial⟩

theorem Actor.proper_form {a : Actor} (h : a.WellFormed) : a.form.Proper := by
  refine ⟨Form.proper_word (by decide), IsName.proper h, Form.allProper_option fun role _ => ?_⟩
  exact ⟨Form.proper_word (by decide), trivial, trivial⟩

theorem Message.proper_form {m : Message} (h : m.WellFormed) : m.form.Proper := by
  obtain ⟨hname, hsender, hreceiver, hfields⟩ := h
  refine ⟨Form.proper_word (by decide), hname.proper, hsender.proper, hreceiver.proper, Form.allProper_map fun f hf => ?_⟩
  exact ⟨Form.proper_word (by decide), (hfields f hf).1.proper, f.type.proper_form (hfields f hf).2, trivial⟩

theorem Function.proper_form {f : Function} (h : f.WellFormed) : f.form.Proper := by
  obtain ⟨hname, hparams, hreturns⟩ := h
  refine ⟨Form.proper_word (by decide), hname.proper, Form.allProper_append.2 ⟨Form.allProper_map fun p hp => ?_, ?_, ?_⟩⟩
  · exact ⟨Form.proper_word (by decide), (hparams p hp).1.proper, p.type.proper_form (hparams p hp).2, trivial⟩
  · exact ⟨Form.proper_word (by decide), f.returns.proper_form hreturns, trivial⟩
  · exact Form.allProper_option fun _ _ => trivial

theorem Block.proper_form {b : Block} (h : b.WellFormed) : b.form.Proper := by
  obtain ⟨hname, hstatements⟩ := h
  refine ⟨Form.proper_word (by decide), hname.proper, Form.allProper_append.2 ⟨?_, ?_⟩⟩
  · cases b.entry
    · trivial
    · exact ⟨Form.proper_word (by decide), trivial⟩
  · exact Form.allProper_map fun s hs => Statement.proper_form (hstatements s hs)

theorem Transaction.proper_form {tx : Transaction} (h : tx.WellFormed) : tx.form.Proper := by
  obtain ⟨hname, hactors, hmessages, hfunctions, hblocks⟩ := h
  refine ⟨Form.proper_word (by decide), hname.proper, Form.allProper_append.2 ⟨?_, Form.allProper_map ?_⟩⟩
  · exact Form.allProper_option fun _ _ => trivial
  · simp only [declarations, List.forall_mem_append, List.forall_mem_map, Declaration.form]
    refine ⟨⟨⟨?_, ?_⟩, ?_⟩, ?_⟩
    · exact fun a ha => Actor.proper_form (hactors a ha)
    · exact fun m hm => Message.proper_form (hmessages m hm)
    · exact fun b hb => Block.proper_form (hblocks b hb)
    · exact fun f hf => Function.proper_form (hfunctions f hf)

/-! ## One structure for a form -/

/-- Where a list is cut in two is seen from what its members are. -/
theorem append_cancel {α : Type} {p : α → Bool} {xs ys as bs : List α} (hxs : ∀ x ∈ xs, p x = true)
    (hys : ∀ y ∈ ys, p y = true) (has : ∀ a ∈ as, p a = false) (hbs : ∀ b ∈ bs, p b = false) (h : xs ++ as = ys ++ bs) :
    xs = ys ∧ as = bs := by
  have hfilter : ∀ us vs : List α, (∀ u ∈ us, p u = true) → (∀ v ∈ vs, p v = false) → (us ++ vs).filter p = us := by
    intro us vs hus hvs
    rw [List.filter_append, List.filter_eq_self.2 hus, List.filter_eq_nil_iff.2 fun v hv => by simp [hvs v hv],
      List.append_nil]
  obtain rfl : xs = ys := by rw [← hfilter xs as hxs has, ← hfilter ys bs hys hbs, h]
  exact ⟨rfl, List.append_cancel_left h⟩

/-- Lists of the same forms have members of the same structure. -/
theorem map_bare_of_map_form {α : Type} {form : α → Form} {bare : α → α} {xs ys : List α}
    (hinj : ∀ x ∈ xs, ∀ y ∈ ys, form x = form y → bare x = bare y) (h : xs.map form = ys.map form) :
    xs.map bare = ys.map bare := by
  induction xs generalizing ys with
  | nil => rw [List.map_eq_nil_iff.1 h.symm]
  | cons x xs ih =>
    cases ys with
    | nil => cases h
    | cons y ys =>
      obtain ⟨hhead, htail⟩ := List.cons.inj h
      have hx := hinj x List.mem_cons_self y List.mem_cons_self hhead
      have hxs := ih (fun a ha b hb => hinj a (List.mem_cons_of_mem _ ha) b (List.mem_cons_of_mem _ hb)) htail
      rw [List.map_cons, List.map_cons, hx, hxs]

/-- Whether a form is a list that starts with a word. -/
def Form.isTagged (tag : String) : Form → Bool
  | .list (.word w :: _) => w == tag
  | _ => false

def Form.isList : Form → Bool
  | .list _ => true
  | _ => false

mutual

theorem TypeExpr.bare_of_form : ∀ a b : TypeExpr, a.form = b.form → a.bare = b.bare
  | ⟨_, [], _⟩, ⟨_, [], _⟩, h => by
    cases h
    rfl
  | ⟨_, [], _⟩, ⟨_, _ :: _, _⟩, h => by cases h
  | ⟨_, _ :: _, _⟩, ⟨_, [], _⟩, h => by cases h
  | ⟨_, x :: xs, _⟩, ⟨_, y :: ys, _⟩, h => by
    simp only [form, Form.list.injEq, List.cons.injEq, Form.word.injEq] at h
    obtain ⟨rfl, hx, hxs⟩ := h
    rw [bare, bare, bareAll, bareAll, TypeExpr.bare_of_form x y hx, TypeExpr.bareAll_of_forms xs ys hxs]

theorem TypeExpr.bareAll_of_forms : ∀ as bs : List TypeExpr, forms as = forms bs → bareAll as = bareAll bs
  | [], [], _ => rfl
  | [], _ :: _, h => by cases h
  | _ :: _, [], h => by cases h
  | a :: as, b :: bs, h => by
    simp only [forms, List.cons.injEq] at h
    rw [bareAll, bareAll, TypeExpr.bare_of_form a b h.1, TypeExpr.bareAll_of_forms as bs h.2]

end

/-! ### Expressions -/

theorem dotted_injective {xs ys : List String} (hne : xs ≠ []) (hne' : ys ≠ []) (hxs : ∀ x ∈ xs, '.' ∉ x.toList)
    (hys : ∀ y ∈ ys, '.' ∉ y.toList) (h : ".".intercalate xs = ".".intercalate ys) : xs = ys := by
  have hsplit : ∀ zs : List String, zs ≠ [] → (∀ z ∈ zs, '.' ∉ z.toList) →
      (".".intercalate zs).toList.splitOn '.' = zs.map String.toList := by
    intro zs hne hzs
    rw [String.toList_intercalate]
    exact List.splitOn_intercalate '.' (List.forall_mem_map.2 hzs) (by simpa using hne)
  have hchars : xs.map String.toList = ys.map String.toList := by
    rw [← hsplit xs hne hxs, ← hsplit ys hne' hys, h]
  exact List.map_injective_iff.2 (fun _ _ => String.toList_inj.1) hchars

theorem IsName.dotless {name : String} (h : IsName name) : '.' ∉ name.toList := fun hdot =>
  absurd (List.all_eq_true.1 h.2.1 _ hdot) (by decide)

section Words

variable {segments : List String} {value : Int64}

theorem integer_ne {text : String} {c : Char} {w : List Char} (h : 0 ≤ value.toInt) (htext : text.toList = c :: w)
    (hc : CharClass.startsName c = true) : toString value.toInt ≠ text := by
  intro heq
  obtain ⟨-, d, v, -, hchars, hdigit, -⟩ := Scan.digits_of_integer h
  rw [heq, htext] at hchars
  have hd := Scan.isDigit_startsName (hdigit d List.mem_cons_self)
  rw [← (List.cons.inj hchars).1, hc] at hd
  cases hd

theorem integer_injective {value' : Int64} (h : 0 ≤ value.toInt) (h' : 0 ≤ value'.toInt)
    (heq : toString value.toInt = toString value'.toInt) : value = value' := by
  obtain ⟨n, c, w, hn, hchars, -, hdecimal⟩ := Scan.digits_of_integer h
  obtain ⟨n', c', w', hn', hchars', -, hdecimal'⟩ := Scan.digits_of_integer h'
  rw [heq, hchars'] at hchars
  rw [← Int64.toInt_inj, hn, hn', ← hdecimal, ← hdecimal', hchars]

theorem integer_ne_dotted (h : 0 ≤ value.toInt) (hne : segments ≠ []) (hnames : ∀ segment ∈ segments, IsName segment) :
    toString value.toInt ≠ ".".intercalate segments := by
  obtain ⟨c, w, hchars, hstarts⟩ := toList_dotted hne hnames
  exact integer_ne h hchars hstarts

theorem integer_ne_boolean (h : 0 ≤ value.toInt) (b : Bool) : toString value.toInt ≠ if b then "true" else "false" := by
  cases b
  · exact integer_ne (c := 'f') h rfl rfl
  · exact integer_ne (c := 't') h rfl rfl

/-- A path of one segment is written as a name, and so not as a truth value; a longer one has a dot. -/
theorem dotted_ne_boolean (hne : segments ≠ []) (hnames : ∀ segment ∈ segments, IsName segment) (b : Bool) :
    ".".intercalate segments ≠ if b then "true" else "false" := by
  intro heq
  have hsegments : segments = [if b then "true" else "false"] := by
    refine dotted_injective hne (List.cons_ne_nil _ _) (fun s hs => (hnames s hs).dotless) ?_ ?_
    · cases b <;> decide
    · rw [heq, String.intercalate_singleton]
  have hname := hnames (if b then "true" else "false") (by simp [hsegments])
  cases b <;> exact absurd hname (by decide)

end Words

theorem Operator.spelling_injective {op op' : Operator} (h : op.spelling = op'.spelling) : op = op' := by
  cases op <;> cases op' <;> first | rfl | exact absurd h (by decide)

theorem Expr.form_injective {a b : Expr} (ha : a.WellFormed) (hb : b.WellFormed) (h : a.form = b.form) : a = b := by
  induction a generalizing b with
  | path xs =>
    cases b with
    | path ys =>
      have hxs : ∀ x ∈ xs, '.' ∉ x.toList := fun x hx => (ha.2 x hx).dotless
      have hys : ∀ y ∈ ys, '.' ∉ y.toList := fun y hy => (hb.2 y hy).dotless
      exact congrArg Expr.path (dotted_injective ha.1 hb.1 hxs hys (Form.word.inj h))
    | integer => exact absurd (Form.word.inj h).symm (integer_ne_dotted hb ha.1 ha.2)
    | boolean => exact absurd (Form.word.inj h) (dotted_ne_boolean ha.1 ha.2 _)
    | string | not | binary => cases h
  | integer value =>
    cases b with
    | path => exact absurd (Form.word.inj h) (integer_ne_dotted ha hb.1 hb.2)
    | integer value' => exact congrArg Expr.integer (integer_injective ha hb (Form.word.inj h))
    | boolean => exact absurd (Form.word.inj h) (integer_ne_boolean ha _)
    | string | not | binary => cases h
  | boolean value =>
    cases b with
    | path => exact absurd (Form.word.inj h).symm (dotted_ne_boolean hb.1 hb.2 _)
    | integer => exact absurd (Form.word.inj h).symm (integer_ne_boolean hb _)
    | boolean value' =>
      have hword := Form.word.inj h
      cases value <;> cases value' <;> first | rfl | exact absurd hword (by decide)
    | string | not | binary => cases h
  | string value =>
    cases b with
    | string value' => exact congrArg Expr.string (Form.literal.inj h)
    | path | integer | boolean | not | binary => cases h
  | not inner ih =>
    cases b with
    | not inner' =>
      simp only [form, Form.list.injEq, List.cons.injEq] at h
      exact congrArg Expr.not (ih ha hb h.2.1)
    | path | integer | boolean | string => cases h
    | binary => simp [form] at h
  | binary op left right ihl ihr =>
    cases b with
    | binary op' left' right' =>
      simp only [form, Form.list.injEq, List.cons.injEq, Form.word.injEq] at h
      obtain ⟨hop, hleft, hright, -⟩ := h
      rw [Operator.spelling_injective hop, ihl ha.1 hb.1 hleft, ihr ha.2 hb.2 hright]
    | path | integer | boolean | string => cases h
    | not => simp [form] at h

/-! ### Declarations -/

theorem option_of_forms {α : Type} {f : α → Form} {x? y? : Option α} (hinj : ∀ x ∈ x?, ∀ y ∈ y?, f x = f y → x = y)
    (h : (x?.map f).toList = (y?.map f).toList) : x? = y? := by
  cases x? with
  | none =>
    cases y? with
    | none => rfl
    | some y => cases h
  | some x =>
    cases y? with
    | none => cases h
    | some y => rw [hinj x rfl y rfl (List.cons.inj h).1]

/-- An argument of a call is not a condition. -/
theorem Expr.not_condition (e : Expr) : e.form.isTagged "when" = false := by
  cases e with
  | path | integer | string | boolean => rfl
  | not => rfl
  | binary op => cases op <;> rfl

theorem Action.bare_of_forms {a b : Action} (ha : a.WellFormed) (hb : b.WellFormed) {xs ys : List Form}
    (hxs : ∀ x ∈ xs, x.isTagged "when" = true) (hys : ∀ y ∈ ys, y.isTagged "when" = true)
    (h : a.forms ++ xs = b.forms ++ ys) : a.bare = b.bare ∧ xs = ys := by
  cases a with
  | send message =>
    cases b with
    | send message' =>
      simp only [forms, List.cons_append, List.nil_append, List.cons.injEq, Form.word.injEq, true_and] at h
      simp [bare, Reference.bare, h]
    | goto | call => simp [forms] at h
  | goto block =>
    cases b with
    | goto block' =>
      simp only [forms, List.cons_append, List.nil_append, List.cons.injEq, Form.word.injEq, true_and] at h
      simp [bare, Reference.bare, h]
    | send | call => simp [forms] at h
  | call function args =>
    cases b with
    | call function' args' =>
      simp only [forms, List.cons_append, List.cons.injEq, Form.word.injEq, true_and] at h
      obtain ⟨hname, hrest⟩ := h
      -- the arguments end where the condition comes
      have hargument : ∀ es : List Expr, ∀ f ∈ es.map Expr.form, (!f.isTagged "when") = true := by
        simp [Expr.not_condition]
      obtain ⟨hargs, hcondition⟩ := append_cancel (hargument args) (hargument args') (by simpa using hxs)
        (by simpa using hys) hrest
      have hsame : args.map id = args'.map id :=
        map_bare_of_map_form (fun e he e' he' => Expr.form_injective (ha.2 e he) (hb.2 e' he')) hargs
      rw [List.map_id, List.map_id] at hsame
      simp [bare, Reference.bare, hname, hsame, hcondition]
    | send | goto => simp [forms] at h

theorem Statement.bare_of_form {a b : Statement} (ha : a.WellFormed) (hb : b.WellFormed) (h : a.form = b.form) :
    a.bare = b.bare := by
  have hwhen : ∀ s : Statement, ∀ x ∈ (s.guard.map fun e => Form.list [.word "when", e.form]).toList,
      x.isTagged "when" = true := by
    intro s x hx
    obtain ⟨e, -, rfl⟩ := Option.map_eq_some_iff.1 (Option.mem_toList.1 hx)
    rfl
  obtain ⟨haction, hguard⟩ := Action.bare_of_forms ha.1 hb.1 (hwhen a) (hwhen b) (Form.list.inj h)
  have hsame : a.guard = b.guard := by
    refine option_of_forms (fun x hx y hy hxy => ?_) hguard
    simp only [Form.list.injEq, List.cons.injEq] at hxy
    exact Expr.form_injective (ha.2 x hx) (hb.2 y hy) hxy.2.1
  unfold bare
  rw [haction, hsame]

theorem Actor.bare_of_form {a b : Actor} (h : a.form = b.form) : a.bare = b.bare := by
  simp only [form, Form.list.injEq, List.cons.injEq, Form.word.injEq, true_and] at h
  obtain ⟨hname, hrole⟩ := h
  have hsame : a.role = b.role := by
    refine option_of_forms (fun x _ y _ hxy => ?_) hrole
    simp only [Form.list.injEq, List.cons.injEq, Form.literal.injEq] at hxy
    exact hxy.2.1
  unfold bare
  rw [hname, hsame]

theorem Field.bare_of_form {a b : Field} (h : a.form = b.form) : a.bare = b.bare := by
  simp only [form, Form.list.injEq, List.cons.injEq, Form.word.injEq, true_and, and_true] at h
  unfold bare
  rw [h.1, TypeExpr.bare_of_form _ _ h.2]

theorem Message.bare_of_form {a b : Message} (h : a.form = b.form) : a.bare = b.bare := by
  simp only [form, Form.list.injEq, List.cons.injEq, Form.word.injEq, true_and] at h
  obtain ⟨hname, hsender, hreceiver, hfields⟩ := h
  unfold bare Reference.bare
  rw [hname, hsender, hreceiver, map_bare_of_map_form (fun f _ f' _ => Field.bare_of_form) hfields]

theorem Param.bare_of_form {a b : Param} (h : a.form = b.form) : a.bare = b.bare := by
  simp only [form, Form.list.injEq, List.cons.injEq, Form.word.injEq, true_and, and_true] at h
  unfold bare
  rw [h.1, TypeExpr.bare_of_form _ _ h.2]

theorem Function.bare_of_form {a b : Function} (h : a.form = b.form) : a.bare = b.bare := by
  simp only [form, Form.list.injEq, List.cons.injEq, Form.word.injEq, true_and] at h
  obtain ⟨hname, hrest⟩ := h
  -- the parameters end where the returned type comes
  have hparam : ∀ ps : List Param, ∀ f ∈ ps.map Param.form, f.isTagged "param" = true := by
    simp [Param.form, Form.isTagged]
  have hreturn : ∀ f : Function, ∀ x ∈ Form.list [.word "returns", f.returns.form] :: (f.description.map Form.literal).toList,
      x.isTagged "param" = false := by
    simp [Form.isTagged]
  obtain ⟨hparams, hrest⟩ := append_cancel (hparam a.params) (hparam b.params) (hreturn a) (hreturn b) hrest
  simp only [List.cons.injEq, Form.list.injEq, and_true, true_and] at hrest
  obtain ⟨hreturns, hdescription⟩ := hrest
  have hsame := option_of_forms (fun _ _ _ _ => Form.literal.inj) hdescription
  unfold bare
  rw [hname, map_bare_of_map_form (fun p _ p' _ => Param.bare_of_form) hparams, TypeExpr.bare_of_form _ _ hreturns, hsame]

theorem Block.bare_of_form {a b : Block} (ha : a.WellFormed) (hb : b.WellFormed) (h : a.form = b.form) :
    a.bare = b.bare := by
  simp only [form, Form.list.injEq, List.cons.injEq, Form.word.injEq, true_and] at h
  obtain ⟨hname, hrest⟩ := h
  -- the mark of an entry block is a word, statements are lists
  have hentry : ∀ b : Block, ∀ f ∈ (if b.entry then [Form.word "entry"] else []), (!f.isList) = true := by
    simp [Form.isList]
  have hstatement : ∀ b : Block, ∀ f ∈ b.statements.map Statement.form, (!f.isList) = false := by
    simp [Statement.form, Form.isList]
  obtain ⟨hentries, hstatements⟩ := append_cancel (hentry a) (hentry b) (hstatement a) (hstatement b) hrest
  have hsame : a.entry = b.entry := by
    cases ha : a.entry <;> cases hb : b.entry <;> first | rfl | simp [ha, hb] at hentries
  unfold bare
  rw [hname, hsame, map_bare_of_map_form (fun s hs s' hs' => Statement.bare_of_form (ha.2 s hs) (hb.2 s' hs')) hstatements]

/-! ### Transactions -/

theorem Declaration.isTagged_form (d : Declaration) (category : Category) :
    d.form.isTagged category.label = decide (d.category = category) := by
  cases d <;> cases category <;> rfl

/-- The tag of a declaration tells its category. -/
theorem Transaction.forms_declared {a b : Transaction}
    (h : a.declarations.map Declaration.form = b.declarations.map Declaration.form) (category : Category) :
    (a.declared category).map Declaration.form = (b.declared category).map Declaration.form := by
  have hfilter : ∀ tx : Transaction, (tx.declared category).map Declaration.form =
      (tx.declarations.map Declaration.form).filter (Form.isTagged category.label) := by
    intro tx
    simp only [declared, List.filter_map, Function.comp_def, Declaration.isTagged_form]
  rw [hfilter, hfilter, h]

theorem Transaction.bare_of_form {a b : Transaction} (ha : a.WellFormed) (hb : b.WellFormed) (h : a.form = b.form) :
    a.bare = b.bare := by
  simp only [form, Form.list.injEq, List.cons.injEq, Form.word.injEq, true_and] at h
  obtain ⟨hname, hrest⟩ := h
  obtain ⟨-, -, -, -, hblocks⟩ := ha
  obtain ⟨-, -, -, -, hblocks'⟩ := hb
  -- the description is a literal, declarations are lists
  have hliteral : ∀ tx : Transaction, ∀ f ∈ (tx.description.map Form.literal).toList, (!f.isList) = true := by
    simp [Form.isList]
  have hlist : ∀ tx : Transaction, ∀ f ∈ tx.declarations.map Declaration.form, (!f.isList) = false := by
    intro tx f hf
    obtain ⟨d, -, rfl⟩ := List.mem_map.1 hf
    cases d <;> rfl
  obtain ⟨hdescription, hdecls⟩ := append_cancel (hliteral a) (hliteral b) (hlist a) (hlist b) hrest
  have hsame := option_of_forms (fun _ _ _ _ => Form.literal.inj) hdescription
  have hforms := forms_declared hdecls
  simp only [declared_eq] at hforms
  have hactors := hforms .actor
  have hmessages := hforms .message
  have hblockForms := hforms .block
  have hfunctions := hforms .function
  simp only [List.map_map, Function.comp_def, Declaration.form] at hactors hmessages hblockForms hfunctions
  unfold bare
  rw [hname, hsame, map_bare_of_map_form (fun _ _ _ _ => Actor.bare_of_form) hactors,
    map_bare_of_map_form (fun _ _ _ _ => Message.bare_of_form) hmessages,
    map_bare_of_map_form (fun x hx y hy => Block.bare_of_form (hblocks x hx) (hblocks' y hy)) hblockForms,
    map_bare_of_map_form (fun _ _ _ _ => Function.bare_of_form) hfunctions]

/-! ## Schemas -/

/-- Schemas whose transactions are well-formed have one S-expression only if they have one structure. -/
theorem Schema.bare_of_sexpr {a b : Schema} (ha : ∀ tx ∈ a.transactions, tx.WellFormed)
    (hb : ∀ tx ∈ b.transactions, tx.WellFormed) (h : a.sexpr = b.sexpr) : a.bare = b.bare := by
  rw [sexpr_eq, sexpr_eq] at h
  have hforms := Form.lines_injective (List.forall_mem_map.2 fun tx htx => Transaction.proper_form (ha tx htx))
    (List.forall_mem_map.2 fun tx htx => Transaction.proper_form (hb tx htx)) h
  exact congrArg Schema.mk (map_bare_of_map_form (fun x hx y hy => Transaction.bare_of_form (ha x hx) (hb y hy)) hforms)

theorem Schema.forms_bare (s : Schema) : s.bare.transactions.map Transaction.form = s.transactions.map Transaction.form := by
  simp only [bare, List.map_map, Function.comp_def, Transaction.form_bare]

theorem Schema.sexpr_bare (s : Schema) : s.bare.sexpr = s.sexpr := by
  rw [sexpr_eq, sexpr_eq, forms_bare]

theorem Schema.print_ne_empty {s : Schema} (h : s.WellFormed) : s.print ≠ "" := by
  intro hempty
  obtain ⟨s', hs', -⟩ := parse_print h
  rw [hempty] at hs'
  have hparse : (parse "").toOption = none := by cbv
  rw [hs'] at hparse
  cases hparse

theorem Schema.bare_of_print {a b : Schema} (ha : ∀ tx ∈ a.transactions, tx.WellFormed)
    (hb : ∀ tx ∈ b.transactions, tx.WellFormed) (h : a.print = b.print) : a.bare = b.bare := by
  have hempty : ∀ s : Schema, s.transactions = [] → s.print = "" := fun s hs => by rw [print, hs]; rfl
  by_cases hnone : a.transactions = []
  · have hnone' : b.transactions = [] := by
      by_contra hne
      exact print_ne_empty ⟨hne, hb⟩ (h ▸ hempty a hnone)
    rw [bare, bare, hnone, hnone']
  · have hsome : b.transactions ≠ [] := fun hnone' => print_ne_empty ⟨hnone, ha⟩ (h ▸ hempty b hnone')
    -- both are what the one text is parsed to
    obtain ⟨s, hs, hbare⟩ := parse_print ⟨hnone, ha⟩
    obtain ⟨s', hs', hbare'⟩ := parse_print ⟨hsome, hb⟩
    rw [h, hs', Except.ok.injEq] at hs
    rw [← hbare, ← hbare', hs]

/-- Schemas that a text can express, and the one without transactions, have the same S-expression exactly
when they have the same structure, and exactly when their canonical texts are the same. -/
theorem Schema.sexpr_eq_iff {a b : Schema} (ha : ∀ tx ∈ a.transactions, tx.WellFormed)
    (hb : ∀ tx ∈ b.transactions, tx.WellFormed) :
    (a.sexpr = b.sexpr ↔ a.bare = b.bare) ∧ (a.sexpr = b.sexpr ↔ a.print = b.print) := by
  have hsexpr : a.sexpr = b.sexpr ↔ a.bare = b.bare :=
    ⟨bare_of_sexpr ha hb, fun h => by rw [← a.sexpr_bare, h, b.sexpr_bare]⟩
  have hprint : a.print = b.print ↔ a.bare = b.bare :=
    ⟨bare_of_print ha hb, fun h => by rw [← a.print_bare, h, b.print_bare]⟩
  exact ⟨hsexpr, hsexpr.trans hprint.symm⟩

/-- A call of `f` with the argument `x` when `y`, and one with the arguments `x` and `!y`. -/
def guardedCall : Schema :=
  ⟨[⟨"T", none, [], [], [⟨"A", true, [⟨.call ⟨"f", .nowhere⟩ [.path ["x"]], some (.path ["y"]), .nowhere⟩], .nowhere⟩], [],
    .nowhere⟩]⟩

def negatedCall : Schema :=
  ⟨[⟨"T", none, [], [], [⟨"A", true, [⟨.call ⟨"f", .nowhere⟩ [.path ["x"], .not (.path ["y"])], none, .nowhere⟩], .nowhere⟩],
    [], .nowhere⟩]⟩

theorem sexpr_of_guardedCall : (∀ tx ∈ guardedCall.transactions, tx.WellFormed) ∧
    (∀ tx ∈ negatedCall.transactions, tx.WellFormed) ∧ guardedCall.sexpr ≠ negatedCall.sexpr ∧
    guardedCall.print ≠ negatedCall.print := by
  have hguarded : ∀ tx ∈ guardedCall.transactions, tx.WellFormed := by
    simp [guardedCall, Transaction.WellFormed, Block.WellFormed, Statement.WellFormed, Action.WellFormed, Expr.WellFormed]
    decide
  have hnegated : ∀ tx ∈ negatedCall.transactions, tx.WellFormed := by
    simp [negatedCall, Transaction.WellFormed, Block.WellFormed, Statement.WellFormed, Action.WellFormed, Expr.WellFormed]
    decide
  have hbare : guardedCall.bare ≠ negatedCall.bare := fun h =>
    absurd (congrArg (fun s => s.transactions.flatMap Transaction.statements) h) (by decide)
  obtain ⟨hsexpr, hprint⟩ := Schema.sexpr_eq_iff hguarded hnegated
  have hne : guardedCall.sexpr ≠ negatedCall.sexpr := fun h => hbare (hsexpr.1 h)
  exact ⟨hguarded, hnegated, hne, fun h => hne (hprint.2 h)⟩

end Parley
