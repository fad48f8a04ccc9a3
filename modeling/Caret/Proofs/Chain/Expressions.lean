import Caret.Proofs.Chain.Walks
import Caret.Proofs.Text.Bytes
import Caret.Syntax.Signature

/-! # Expressions whose signature is a chain

The signature of a chain of calls and subscripts can be read off its tree or scanned
from the end of its text. Both readings agree.
-/

namespace Caret.Chain

open Text Syntax

/-- A name: a letter, and after it word characters. -/
structure Name where
  chars : List Char
  letter : chars.head?.any Char.isAlpha
  word : ∀ c ∈ chars, isWordChar c

/-- What stands before the name of a variable. -/
inductive Sigil where
  | bare
  | single
  | double
  | dollar
deriving DecidableEq, Repr

def Sigil.chars : Sigil → List Char
  | bare => []
  | single => ['@']
  | double => ['@', '@']
  | dollar => ['$']

/-- What stands in the brackets of a call or a subscript. Two places after a percent
sign a bracket opens a literal, so there is no such sign. -/
structure Arguments where
  inner : List Char
  nested : Nested inner
  plain : '%' ∉ inner

def Arguments.group (arguments : Arguments) (bracket : Bracket) : Group :=
  ⟨bracket, arguments.inner, arguments.nested⟩

/-- The expressions: variables, calls and subscripts. -/
inductive Expr where
  | root (sigil : Sigil) (name : Name)
  | call (name : Name) (arguments : Arguments)
  | method (receiver : Expr) (name : Name)
  | methodCall (receiver : Expr) (name : Name) (arguments : Arguments)
  | element (object : Expr) (arguments : Arguments)

namespace Expr

def text : Expr → List Char
  | root sigil name => sigil.chars ++ name.chars
  | call name arguments => name.chars ++ (arguments.group .round).text
  | method receiver name => receiver.text ++ '.' :: name.chars
  | methodCall receiver name arguments =>
      receiver.text ++ '.' :: name.chars ++ (arguments.group .round).text
  | element object arguments => object.text ++ (arguments.group .square).text

/-- The names of an expression in a chain, and a pseudo name for each subscript. -/
def signature : Expr → List Char
  | root sigil name => sigil.chars ++ name.chars
  | call name _ => name.chars
  | method receiver name => receiver.signature ++ '.' :: name.chars
  | methodCall receiver name _ => receiver.signature ++ '.' :: name.chars
  | element object _ => object.signature ++ Bracket.square.mark

end Expr

section Scan

theorem Name.percent_not_mem (name : Name) : '%' ∉ name.chars :=
  fun hmem => absurd (name.word _ hmem) (by decide)

theorem Arguments.percent_not_mem (arguments : Arguments) (bracket : Bracket) :
    '%' ∉ (arguments.group bracket).text := by
  have hplain := arguments.plain
  cases bracket <;> simp [group, Group.text, Bracket.opener, Bracket.closer, hplain]

theorem Expr.percent_not_mem (expr : Expr) : '%' ∉ expr.text := by
  induction expr with
  | root sigil name =>
      have hname := name.percent_not_mem
      cases sigil <;> simp [text, Sigil.chars, hname]
  | call name arguments =>
      simp [text, name.percent_not_mem, arguments.percent_not_mem]
  | method receiver name ih => simp [text, name.percent_not_mem, ih]
  | methodCall receiver name arguments ih =>
      simp [text, name.percent_not_mem, arguments.percent_not_mem, ih]
  | element object arguments ih => simp [text, arguments.percent_not_mem, ih]

theorem getLast?_ne_of_not_mem {left : List Char} {c : Char} (hleft : c ∉ left) :
    left.getLast? ≠ some c :=
  fun heq => hleft (List.mem_of_getLast? heq)

variable {right : List Char} {walk : Walk}

/-- Where a sigil stops the walk, the signature begins. -/
theorem walkBetween_stop {left : List Char} {c : Char} {last : Walk} {start : Nat}
    (hsigil : c = '@' ∨ c = '$') (hzero : walk.depth.isZero) (hafter : walk.afterBlank = false)
    (hstop : (Code.ofText (left ++ c :: right)).takeChar left.length c (walk.past c) =
      .stop last start) :
    walkBetween (left ++ [c]) right walk = last.finish start := by
  have htrack : walk.depth.track c = walk.depth := by rcases hsigil with rfl | rfl <;> rfl
  have houtside : (walk.depth.track c).isZero := by rwa [htrack]
  have hblank : isBlank c = false := by rcases hsigil with rfl | rfl <;> rfl
  have hboundary : isBoundary c = false := by rcases hsigil with rfl | rfl <;> rfl
  have hsubscript : c ≠ '[' := by rcases hsigil with rfl | rfl <;> decide
  rw [walkBetween_concat, Code.stepBack_eq_crossChar (.inr hblank) (.inr (.inl hafter)),
    Code.crossChar_outside houtside hboundary (.inl hsubscript), hstop]

/-- A sigil is taken whole, and nothing is left of it. -/
theorem walkBetween_sigil (sigil : Sigil) (hzero : walk.depth.isZero)
    (hafter : walk.afterBlank = false) :
    (walkBetween sigil.chars right walk).chars = sigil.chars ++ walk.chars := by
  cases sigil with
  | bare =>
      rw [Sigil.chars, walkBetween_nil]
      rfl
  | single =>
      have hstop : (Code.ofText ([] ++ '@' :: right)).takeChar 0 '@' (walk.past '@') =
          .stop ((walk.past '@').copy 0 '@') 0 := by
        simp [Code.takeChar, Code.hasBefore, isSignatureChar]
      have hsingle := @walkBetween_stop right walk [] '@' _ _ (.inl rfl) hzero hafter hstop
      exact congrArg Signature.chars hsingle
  | double =>
      have hstop : (Code.ofText (['@'] ++ '@' :: right)).takeChar 1 '@' (walk.past '@') =
          .stop (((walk.past '@').copy 1 '@').copy 0 '@') 0 := by
        simp [Code.takeChar, Code.hasBefore, Code.ofText, isSignatureChar]
      have hdouble := @walkBetween_stop right walk ['@'] '@' _ _ (.inl rfl) hzero hafter hstop
      exact congrArg Signature.chars hdouble
  | dollar =>
      have hstop : (Code.ofText ([] ++ '$' :: right)).takeChar 0 '$' (walk.past '$') =
          .stop ((walk.past '$').copy 0 '$') 0 := by
        simp [Code.takeChar, Code.hasBefore, isSignatureChar]
      have hdollar := @walkBetween_stop right walk [] '$' _ _ (.inr rfl) hzero hafter hstop
      exact congrArg Signature.chars hdollar

theorem walkBetween_root (sigil : Sigil) (name : Name) (hzero : walk.depth.isZero)
    (hafter : walk.afterBlank = false) :
    (walkBetween (sigil.chars ++ name.chars) right walk).chars =
      sigil.chars ++ name.chars ++ walk.chars := by
  have hleft : sigil.chars.getLast? ≠ some '%' := by cases sigil <;> decide
  rw [walkBetween_word name.word hzero hafter hleft, walkBetween_sigil sigil,
    Walk.copyAll_chars, List.append_assoc]
  · rwa [Walk.copyAll_depth]
  · rwa [Walk.copyAll_afterBlank]

/-- Arguments are passed over, and a subscript leaves its mark. -/
theorem walkBetween_arguments {left : List Char} (arguments : Arguments) (bracket : Bracket)
    (hleft : '%' ∉ left) (hzero : walk.depth.isZero) (hafter : walk.afterBlank = false)
    (hshort : (left ++ (arguments.group bracket).text).length < 0x80000000) :
    ∃ next, walkBetween (left ++ (arguments.group bracket).text) right walk =
        walkBetween left ((arguments.group bracket).text ++ right) next ∧
      next.depth.isZero ∧ next.afterBlank = false ∧ next.chars = bracket.mark ++ walk.chars := by
  have hgroup : (arguments.group bracket).text.length < 0x80000000 := by
    rw [List.length_append] at hshort
    omega
  have hbefore : left.dropLast.getLast? ≠ some '%' :=
    getLast?_ne_of_not_mem fun hmem => hleft (List.dropLast_subset _ hmem)
  exact ⟨_, walkBetween_group _ hzero hgroup (.inl hafter) fun _ => hbefore, hzero, rfl, rfl⟩

theorem walkBetween_method {left : List Char} (name : Name) (hleft : '%' ∉ left)
    (hzero : walk.depth.isZero) (hafter : walk.afterBlank = false) :
    ∃ next, walkBetween (left ++ '.' :: name.chars) right walk =
        walkBetween left ('.' :: name.chars ++ right) next ∧
      next.depth.isZero ∧ next.afterBlank = false ∧
        next.chars = '.' :: name.chars ++ walk.chars := by
  have hnone : ∀ c ∈ ([] : List Char), isBlank c := by simp
  obtain ⟨next, hnext, hnextzero, hchars, hblank⟩ := @walkBetween_dotted left right walk [] [] _
    hnone hnone name.word hzero hafter (getLast?_ne_of_not_mem hleft)
  rw [List.append_nil] at hnext
  exact ⟨next, hnext, hnextzero, hblank, hchars⟩

/-- Scanning an expression from its end gives its signature. -/
theorem walkBetween_expr (expr : Expr) (hzero : walk.depth.isZero)
    (hafter : walk.afterBlank = false) (hshort : expr.text.length < 0x80000000) :
    (walkBetween expr.text right walk).chars = expr.signature ++ walk.chars := by
  -- The walk meets the outermost part first and hands the receiver on with a longer tail.
  induction expr generalizing right walk with
  | root sigil name => exact walkBetween_root sigil name hzero hafter
  | call name arguments =>
      obtain ⟨next, hnext, hnextzero, hblank, hchars⟩ := @walkBetween_arguments right walk _
        arguments .round name.percent_not_mem hzero hafter hshort
      have hroot := @walkBetween_root ((arguments.group .round).text ++ right) next .bare name
        hnextzero hblank
      rw [hchars] at hroot
      rw [Expr.text, hnext]
      exact hroot
  | method receiver name ih =>
      obtain ⟨next, hnext, hnextzero, hblank, hchars⟩ := @walkBetween_method right walk _
        name receiver.percent_not_mem hzero hafter
      rw [Expr.text, List.length_append] at hshort
      rw [Expr.text, hnext, ih hnextzero hblank (by omega), hchars, Expr.signature]
      simp
  | methodCall receiver name arguments ih =>
      have hcallee : '%' ∉ receiver.text ++ '.' :: name.chars :=
        (Expr.method receiver name).percent_not_mem
      obtain ⟨outer, houter, houterzero, houterblank, houterchars⟩ :=
        @walkBetween_arguments right walk _ arguments .round hcallee hzero hafter hshort
      obtain ⟨next, hnext, hnextzero, hblank, hchars⟩ :=
        @walkBetween_method ((arguments.group .round).text ++ right) outer _ name
          receiver.percent_not_mem houterzero houterblank
      rw [Expr.text, List.length_append, List.length_append] at hshort
      rw [Expr.text, houter, hnext, ih hnextzero hblank (by omega), hchars, houterchars,
        Expr.signature]
      simp [Bracket.mark]
  | element object arguments ih =>
      obtain ⟨next, hnext, hnextzero, hblank, hchars⟩ := @walkBetween_arguments right walk _
        arguments .square object.percent_not_mem hzero hafter hshort
      rw [Expr.text, List.length_append] at hshort
      rw [Expr.text, hnext, ih hnextzero hblank (by omega), hchars, Expr.signature,
        List.append_assoc]

theorem endSignature_expr (expr : Expr) (hshort : expr.text.length < 0x80000000) :
    (endSignature expr.text).chars = expr.signature := by
  rw [endSignature_eq, walkBetween_expr expr rfl rfl hshort]
  exact List.append_nil _

end Scan

section Reading

/-- Whether a node covers the text from one offset to another. -/
def Spans (index : Index) (tree : Tree) (left right : Nat) : Prop :=
  index.byteOf left = some tree.bytes.start ∧ index.byteOf right = some tree.bytes.stop

/-- The kinds of variables and of names without arguments. -/
def rootKinds : List String :=
  ["identifier", "constant", "instance_variable", "class_variable", "global_variable"]

/-- The trees of an expression that begins a text. Of the parts of a node only those
that a signature reads are named, and others may stand among them. -/
inductive Represents (index : Index) : Expr → Tree → Prop
  | root {sigil : Sigil} {name : Name} {label : Label} (hkind : label.kind ∈ rootKinds)
      (hspan : Spans index (.node label []) 0 (sigil.chars ++ name.chars).length) :
      Represents index (.root sigil name) (.node label [])
  | call {name : Name} {arguments : Arguments} {tree method : Tree} (hkind : tree.kind = "call")
      (hreceiver : tree.child? "receiver" = none) (hmethod : tree.child? "method" = some method)
      (hspan : Spans index method 0 name.chars.length) :
      Represents index (.call name arguments) tree
  | method {receiver : Expr} {name : Name} {tree inner method : Tree}
      (hkind : tree.kind = "call") (hreceiver : tree.child? "receiver" = some inner)
      (hinner : Represents index receiver inner) (hmethod : tree.child? "method" = some method)
      (hspan : Spans index method (receiver.text.length + 1)
        (receiver.text.length + 1 + name.chars.length)) :
      Represents index (.method receiver name) tree
  | methodCall {receiver : Expr} {name : Name} {arguments : Arguments} {tree inner method : Tree}
      (hkind : tree.kind = "call") (hreceiver : tree.child? "receiver" = some inner)
      (hinner : Represents index receiver inner) (hmethod : tree.child? "method" = some method)
      (hspan : Spans index method (receiver.text.length + 1)
        (receiver.text.length + 1 + name.chars.length)) :
      Represents index (.methodCall receiver name arguments) tree
  | element {object : Expr} {arguments : Arguments} {tree inner : Tree}
      (hkind : tree.kind = "element_reference") (hobject : tree.child? "object" = some inner)
      (hinner : Represents index object inner) :
      Represents index (.element object arguments) tree

variable {index : Index} {tree : Tree}

theorem partSignature_eq (index : Index) (field : String) (children : List Tree) :
    partSignature index field children =
      (children.find? (·.label.field = some field)).map (signature index) := by
  induction children with
  | nil => rfl
  | cons child rest ih =>
      rw [partSignature]
      by_cases hfield : child.label.field = some field <;> simp [hfield, ih]

theorem isName_of_mem_rootKinds {kind : String} (hkind : kind ∈ rootKinds) :
    isName kind ∧ literalClass? kind = none ∧ kind ≠ "call" := by
  simp only [rootKinds, List.mem_cons, List.not_mem_nil, or_false] at hkind
  rcases hkind with rfl | rfl | rfl | rfl | rfl <;> exact ⟨by decide, rfl, by decide⟩

theorem signature_name {label : Label} {children : List Tree} (hkind : label.kind ∈ rootKinds) :
    signature index (.node label children) = index.byteSlice label.bytes := by
  obtain ⟨hname, hliteral, hcall⟩ := isName_of_mem_rootKinds hkind
  rw [signature, hliteral]
  dsimp only
  rw [if_neg hcall, if_pos hname]

theorem signature_call {method : Tree} {name : String} (hkind : tree.kind = "call")
    (hmethod : tree.child? "method" = some method)
    (hname : index.byteSlice method.bytes = some name) :
    signature index tree =
      match tree.child? "receiver" with
      | none => some name
      | some receiver => (signature index receiver).map (· ++ "." ++ name) := by
  obtain ⟨label, children⟩ := tree
  replace hkind : label.kind = "call" := hkind
  replace hmethod : children.find? (·.label.field = some "method") = some method := hmethod
  have hliteral : literalClass? "call" = none := rfl
  rw [signature, hkind, hliteral]
  simp only [if_true, hmethod, Option.bind_some, hname, partSignature_eq]
  -- Both sides look for the receiver in the same way, once by name and once by hand.
  cases hreceiver : children.find? (·.label.field = some "receiver") <;>
    simp [Tree.child?, Tree.children, hreceiver]

theorem signature_element {object : Tree} (hkind : tree.kind = "element_reference")
    (hobject : tree.child? "object" = some object) :
    signature index tree = (signature index object).map (· ++ ".[]") := by
  obtain ⟨label, children⟩ := tree
  replace hkind : label.kind = "element_reference" := hkind
  replace hobject : children.find? (·.label.field = some "object") = some object := hobject
  have hliteral : literalClass? "element_reference" = none := rfl
  rw [signature, hkind, hliteral]
  dsimp only
  rw [if_neg (by decide), if_neg (by decide), if_pos rfl, partSignature_eq, hobject]
  rfl

/-- The text that a node covers is cut out of the text of the tree. -/
theorem byteSlice_of_spans {text before middle after : List Char}
    (htext : before ++ middle ++ after = text)
    (hspan : Spans (Index.ofString (String.ofList text)) tree before.length
      (before.length + middle.length)) :
    (Index.ofString (String.ofList text)).byteSlice tree.bytes = some (String.ofList middle) := by
  obtain ⟨hstart, hstop⟩ := hspan
  have hslice := Index.byteSlice_byteOf (Nat.le_add_right _ _) hstart hstop
  rw [hslice]
  simp [Index.slice, Index.ofString, ← htext]

/-- The name of a method is found after the dot that follows its receiver. -/
theorem byteSlice_method {text receiver : List Char} {name : Name}
    (hbegins : receiver ++ '.' :: name.chars <+: text)
    (hspan : Spans (Index.ofString (String.ofList text)) tree (receiver.length + 1)
      (receiver.length + 1 + name.chars.length)) :
    (Index.ofString (String.ofList text)).byteSlice tree.bytes =
      some (String.ofList name.chars) := by
  obtain ⟨after, htext⟩ := hbegins
  have hsplit : receiver ++ ['.'] ++ name.chars ++ after = text := by
    rw [← htext]
    simp
  have hlength : (receiver ++ ['.']).length = receiver.length + 1 := by simp
  rw [← hlength] at hspan
  exact byteSlice_of_spans hsplit hspan

theorem ofList_append_dot (left right : List Char) :
    String.ofList left ++ "." ++ String.ofList right = String.ofList (left ++ '.' :: right) := by
  simp [← String.toList_inj]

/-- The signature of a tree is that of the expression it represents. -/
theorem signature_of_represents {expr : Expr} {text : List Char} (hbegins : expr.text <+: text)
    (htree : Represents (Index.ofString (String.ofList text)) expr tree) :
    signature (Index.ofString (String.ofList text)) tree = some (String.ofList expr.signature) := by
  -- Inner expressions begin the same text, so one index serves all nodes.
  induction htree with
  | @root sigil name label hkind hspan =>
      obtain ⟨after, htext⟩ := hbegins
      have hsplit : [] ++ (sigil.chars ++ name.chars) ++ after = text := htext
      rw [← Nat.zero_add (sigil.chars ++ name.chars).length] at hspan
      rw [signature_name hkind]
      exact byteSlice_of_spans hsplit hspan
  | @call name arguments tree method hkind hreceiver hmethod hspan =>
      obtain ⟨after, htext⟩ := hbegins
      have hsplit : [] ++ name.chars ++ ((arguments.group .round).text ++ after) = text := by
        rw [← htext, Expr.text, List.nil_append, List.append_assoc]
      rw [← Nat.zero_add name.chars.length] at hspan
      rw [signature_call hkind hmethod (byteSlice_of_spans hsplit hspan), hreceiver, Expr.signature]
  | @method receiver name tree inner method hkind hreceiver hinner hmethod hspan ih =>
      have hname := byteSlice_method hbegins hspan
      have hbefore : receiver.text <+: text := (List.prefix_append _ _).trans hbegins
      rw [signature_call hkind hmethod hname, hreceiver]
      simp only [ih hbefore, Option.map_some]
      rw [ofList_append_dot, Expr.signature]
  | @methodCall receiver name arguments tree inner method hkind hreceiver hinner hmethod hspan ih =>
      have hcallee : receiver.text ++ '.' :: name.chars <+: text :=
        (List.prefix_append _ _).trans hbegins
      have hname := byteSlice_method hcallee hspan
      have hbefore : receiver.text <+: text := (List.prefix_append _ _).trans hcallee
      rw [signature_call hkind hmethod hname, hreceiver]
      simp only [ih hbefore, Option.map_some]
      rw [ofList_append_dot, Expr.signature]
  | @element object arguments tree inner hkind hobject hinner ih =>
      have hbefore : object.text <+: text := (List.prefix_append _ _).trans hbegins
      rw [signature_element hkind hobject, ih hbefore]
      simp [Expr.signature, Bracket.mark]

/-- Reading an expression off its tree and scanning it from the end of its text give
the same signature. -/
theorem signature_eq_endSignature {expr : Expr} {tree : Tree}
    (hshort : expr.text.length < 0x80000000)
    (htree : Represents (Index.ofString (String.ofList expr.text)) expr tree) :
    signature (Index.ofString (String.ofList expr.text)) tree =
      some (String.ofList (endSignature expr.text).chars) := by
  rw [signature_of_represents (List.prefix_refl _) htree, endSignature_expr expr hshort]

/-- The expression `@a.b(é)[1]`. -/
def accentedExpr : Expr :=
  .element
    (.methodCall (.root .single ⟨['a'], rfl, by simp [isWordChar]⟩)
      ⟨['b'], rfl, by simp [isWordChar]⟩ ⟨['é'], .plain (by decide) .nil, by decide⟩)
    ⟨['1'], .plain (by decide) .nil, by decide⟩

/-- Its tree. The accented letter takes two bytes. -/
def accentedTree : Tree :=
  .node ⟨"element_reference", true, ⟨0, 11⟩, none⟩
    [.node ⟨"call", true, ⟨0, 8⟩, some "object"⟩
      [.node ⟨"instance_variable", true, ⟨0, 2⟩, some "receiver"⟩ [],
        .node ⟨".", false, ⟨2, 3⟩, none⟩ [],
        .node ⟨"identifier", true, ⟨3, 4⟩, some "method"⟩ [],
        .node ⟨"argument_list", true, ⟨4, 8⟩, some "arguments"⟩ []],
      .node ⟨"[", false, ⟨8, 9⟩, none⟩ [],
      .node ⟨"integer", true, ⟨9, 10⟩, none⟩ [],
      .node ⟨"]", false, ⟨10, 11⟩, none⟩ []]

theorem signature_eq_endSignature_accented :
    accentedExpr.text.length < 0x80000000 ∧
      Represents (Index.ofString (String.ofList accentedExpr.text)) accentedExpr accentedTree ∧
      signature (Index.ofString (String.ofList accentedExpr.text)) accentedTree =
        some (String.ofList (endSignature accentedExpr.text).chars) :=
  have hshort : accentedExpr.text.length < 0x80000000 := by decide
  have htree : Represents (Index.ofString (String.ofList accentedExpr.text)) accentedExpr
      accentedTree :=
    .element rfl rfl (.methodCall rfl rfl (.root (by decide) ⟨by decide, by decide⟩) rfl
      ⟨by decide, by decide⟩)
  ⟨hshort, htree, signature_eq_endSignature hshort htree⟩

/-- A node without children that plays a part in its parent. -/
def leafBetween (text : List Char) (kind field : String) (left right : Nat) : Tree :=
  .node ⟨kind, true, ⟨utf8Length (text.take left), utf8Length (text.take right)⟩, some field⟩ []

theorem spans_leafBetween {text : List Char} {kind field : String} {left right : Nat}
    (hle : left ≤ right) (hright : right ≤ text.length) :
    Spans (Index.ofString (String.ofList text)) (leafBetween text kind field left right)
      left right := by
  have hsize : (Index.ofString (String.ofList text)).size = text.length := by
    simp [Index.size_ofString]
  constructor
  · rw [Index.byteOf_ofString (by omega), String.toList_ofList]
    rfl
  · rw [Index.byteOf_ofString (by omega), String.toList_ofList]
    rfl

/-- The same node in another part of its parent. -/
def asPart (field : String) (tree : Tree) : Tree :=
  .node { tree.label with field := some field } tree.children

theorem Represents.asPart {expr : Expr} (htree : Represents index expr tree) (field : String) :
    Represents index expr (asPart field tree) := by
  obtain ⟨label, children⟩ := tree
  cases htree with
  | root hkind hspan => exact .root hkind hspan
  | call hkind hreceiver hmethod hspan => exact .call hkind hreceiver hmethod hspan
  | method hkind hreceiver hinner hmethod hspan =>
      exact .method hkind hreceiver hinner hmethod hspan
  | methodCall hkind hreceiver hinner hmethod hspan =>
      exact .methodCall hkind hreceiver hinner hmethod hspan
  | element hkind hobject hinner => exact .element hkind hobject hinner

/-- Every expression has a tree. -/
theorem exists_represents {expr : Expr} {text : List Char} (hbegins : expr.text <+: text) :
    ∃ tree, Represents (Index.ofString (String.ofList text)) expr tree := by
  have hbounds : ∀ {receiver : List Char} {name : Name}, receiver ++ '.' :: name.chars <+: text →
      receiver.length + 1 + name.chars.length ≤ text.length := by
    intro receiver name hcallee
    have hle := hcallee.length_le
    rw [List.length_append, List.length_cons] at hle
    omega
  induction expr with
  | root sigil name =>
      exact ⟨leafBetween text "identifier" "" 0 _,
        .root (List.mem_cons_self) (spans_leafBetween (Nat.zero_le _) hbegins.length_le)⟩
  | call name arguments =>
      have hname : name.chars <+: text := (List.prefix_append _ _).trans hbegins
      exact ⟨.node ⟨"call", true, ⟨0, 0⟩, none⟩ [leafBetween text "identifier" "method" 0 _],
        .call rfl rfl rfl (spans_leafBetween (Nat.zero_le _) hname.length_le)⟩
  | method receiver name ih =>
      obtain ⟨inner, hinner⟩ := ih ((List.prefix_append _ _).trans hbegins)
      exact ⟨.node ⟨"call", true, ⟨0, 0⟩, none⟩
          [asPart "receiver" inner, leafBetween text "identifier" "method" _ _],
        .method rfl rfl (hinner.asPart "receiver") rfl
          (spans_leafBetween (Nat.le_add_right _ _) (hbounds hbegins))⟩
  | methodCall receiver name arguments ih =>
      have hcallee := (List.prefix_append _ _).trans hbegins
      obtain ⟨inner, hinner⟩ := ih ((List.prefix_append _ _).trans hcallee)
      exact ⟨.node ⟨"call", true, ⟨0, 0⟩, none⟩
          [asPart "receiver" inner, leafBetween text "identifier" "method" _ _],
        .methodCall rfl rfl (hinner.asPart "receiver") rfl
          (spans_leafBetween (Nat.le_add_right _ _) (hbounds hcallee))⟩
  | element object arguments ih =>
      obtain ⟨inner, hinner⟩ := ih ((List.prefix_append _ _).trans hbegins)
      exact ⟨.node ⟨"element_reference", true, ⟨0, 0⟩, none⟩ [asPart "object" inner],
        .element rfl rfl (hinner.asPart "object")⟩

end Reading

end Caret.Chain
