import PolicyFormat.Layout.List

/-!
The layout of a policy file.
-/
namespace PolicyFormat.Layout

open Policy

mutual

def elementLines : Element → Frame → Lines
  | .leaf word, f => leafLines word f
  | .call traits name ⟨argTraits, opening, entries, closing⟩, f =>
    withComments traits (fun f => do
      let name ← leafLines name f.child
      let arguments ←
        listLines .arguments argTraits opening closing (elementPieces entries)
          (f.child (← widthAfter name))
      return joinLines [name, arguments]) f

def elementPieces : List (Entry Element) → List Piece
  | [] => []
  | .item value :: rest =>
    Piece.ofItem .other value.traits (fun f => elementLines value f) :: elementPieces rest
  | .comment c :: rest => Piece.ofComment c :: elementPieces rest

end

def valueLines : Value → Frame → Lines
  | .single element => elementLines element
  | .list elements =>
    groupLines .braced (fun e => Piece.ofItem .other e.traits (elementLines e)) elements

/-- The attributes whose value may be a call of a function. In all others a call is one of a
bundle or a body, and may do without empty brackets. -/
def functionAttributes : List String :=
  ["ifvarclass", "int", "real", "string", "data", "ilist", "slist", "rlist"]

/-- The lines of an attribute with its value. If they do not fit, the value goes to a line of its
own, where that is allowed. -/
def assignmentBody (a : Assignment) (f : Frame) : Lines := do
  let name ← leafLines a.name f.child
  let inner :=
    if functionAttributes.contains a.name.text then { f with allowsBraceless := false } else f
  let oneLine (_ : Frame) : Lines := do
    let value ← valueLines a.value (inner.child ((← widthAfter name) + 4))
    return joinLines [name, [{ text := " => " }], value]
  let broken (_ : Frame) : Lines := do
    let value ← valueLines a.value (inner.child tabSize)
    return joinLines [name, [{ text := " =>" }, { text := "", indent := some tabSize }], value]
  firstThatFits f (if f.mayBreakConstraint then [oneLine, broken] else [oneLine])

def constraintLines (a : Assignment) (f : Frame) : Lines :=
  withComments a.traits (assignmentBody a) f

/-- The lines of an attribute in a body, with its semicolon. Its value may be a call of a
function. -/
def selectionLines (a : Assignment) (f : Frame) : Lines :=
  withComments a.traits (fun f => do
    let lines ← assignmentBody a { f with allowsBraceless := false }
    return joinLines [lines, [{ text := ";" }]]) f

def guardLines (g : Guard) (f : Frame) : Lines :=
  withComments g.traits (fun f => leafLines g.expression f.child) f

/-- The single attribute of a promise may stand on the line of the promiser, unless comments
stand above it. -/
def allowsOneLine (p : Promise) : Bool :=
  p.promisee.isNone && p.promiser.traits.span.startLine == p.promiser.traits.span.endLine &&
  match p.constraints.entries with
  | [.item a] => a.traits.leading.isEmpty
  | [.comment _] => true
  | _ => false

def promiseLines (p : Promise) (f : Frame) : Lines :=
  withComments p.traits (fun f => do
    let promiser ← leafLines p.promiser f.child
    let head ←
      match p.promisee with
      | some value => do
        let promisee ← valueLines value f.child
        firstThatFits f [
          fun _ => .ok (joinLines [promiser, [{ text := " -> " }], promisee]),
          fun _ => .ok (joinLines [promiser,
            [{ text := "" }, { text := "-> ", indent := some tabSize }], promisee])]
      | none => pure promiser
    let constraints :=
      groupLines .constraints (fun a => Piece.ofItem .other a.traits (constraintLines a)) p.constraints
    let oneLine (f : Frame) : Lines := do
      let inner := f.child ((← widthAfter promiser) + 1)
      let lines ← constraints { inner with mayBreakConstraint := false }
      return joinLines [head, [{ text := " " }], lines]
    let bare (_ : Frame) : Lines := do
      return joinLines [head, ← constraints f.child]
    let lined (f : Frame) : Lines := do
      return joinLines [head, [{ text := "" }, { text := "", indent := some tabSize }],
        ← constraints (f.child tabSize)]
    firstThatFits f
      (if allowsOneLine p then [oneLine, lined]
       else if p.constraints.entries.isEmpty then [bare]
       else [lined])) f

/-- A class expression or a promise as a piece of a list. -/
def clausePiece : Clause → Piece
  | .guard g => Piece.ofItem .guard g.traits (guardLines g)
  | .promise p => Piece.ofItem .statement p.traits (promiseLines p)

def promiseTypeLines (p : PromiseType) (f : Frame) : Lines :=
  withComments p.traits (fun f => do
    let name ← leafLines p.name f.child
    let clauses ← groupLines .clauses clausePiece p.clauses f.child
    let start := if p.clauses.entries.isEmpty then [] else [{ text := "" }]
    return joinLines [name, start ++ clauses]) f

/-- A class expression or an attribute as a piece of a list. -/
def selectionPiece : Selection → Piece
  | .guard g => Piece.ofItem .guard g.traits (guardLines g)
  | .assignment a => Piece.ofItem .statement a.traits (selectionLines a)

/-- The lines of what stands between the braces of a block, with the braces. -/
def contentsLines : Contents → Frame → Lines
  | .bundle statements =>
    groupLines .promiseTypes (fun p => Piece.ofItem .other p.traits (promiseTypeLines p)) statements
  | .body selections => groupLines .selections selectionPiece selections

def blockLines (b : Block) (f : Frame) : Lines :=
  withComments b.traits (fun f => do
    let space : List Line := [{ text := " " }]
    let head := joinLines [← leafLines b.keyword f.child, space, ← leafLines b.type f.child, space,
      ← leafLines b.name f.child]
    let parameters ←
      groupLines .arguments (fun l => Piece.ofItem .other l.traits (leafLines l)) b.parameters
        (f.child (← widthAfter head))
    return joinLines [head, parameters, ← contentsLines b.contents f.child]) f

def specificationLines (s : Specification) (f : Frame) : Lines :=
  groupLines .specification (fun b => Piece.ofItem .other b.traits (blockLines b)) s f

def renderLines (lineEnding : String) (lines : List Line) : String :=
  String.intercalate lineEnding (lines.map Line.render)

end PolicyFormat.Layout
