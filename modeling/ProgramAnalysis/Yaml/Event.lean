import ProgramAnalysis.Yaml.Token
/-!
From tokens to events: documents with the nodes in them, in order. What may come next is a stack
of expectations.
-/
namespace ProgramAnalysis.Yaml

inductive Event where
  | documentStart
  | documentEnd
  | reference (anchor : String)
  | scalar (anchor tag : Option String) (style : Style) (text : String)
  | sequenceStart (anchor tag : Option String)
  | sequenceEnd
  | mappingStart (anchor tag : Option String)
  | mappingEnd
  | streamEnd
deriving DecidableEq, Repr

inductive Expectation where
  /-- The first document, which needs no marker. -/
  | firstDocument
  | document
  | documentContent
  | documentEnd
  | blockNode
  | blockEntry
  /-- An entry of a sequence that is indented no more than the key it belongs to. -/
  | indentlessEntry
  | blockKey
  | blockValue
  | flowEntry (first : Bool)
  /-- A mapping of one pair, written as an entry of a sequence. -/
  | pairKey
  | pairValue
  | pairEnd
  | flowKey (first : Bool)
  | flowValue
  /-- A key without a colon. -/
  | flowNoValue
  | nothing
deriving DecidableEq, Repr

/-- Tag handles that need no directive. -/
def defaultHandles : List (String × String) := [("!", "!"), ("!!", "tag:yaml.org,2002:")]

structure EventReader where
  tokens : List Token
  expected : Expectation
  /-- What is expected afterwards, innermost first. -/
  pending : List Expectation
  handles : List (String × String)

namespace EventReader

def start (tokens : List Token) : EventReader := ⟨tokens, .firstDocument, [], []⟩

def expect (r : EventReader) (e : Expectation) : EventReader := { r with expected := e }

def after (r : EventReader) (tokens : List Token) : EventReader := { r with tokens }

def afterwards (r : EventReader) (e : Expectation) : EventReader :=
  { r with pending := e :: r.pending }

/-- Goes on with what was expected afterwards. -/
def leave (r : EventReader) : EventReader :=
  match r.pending with
  | [] => r.expect .nothing
  | e :: es => { r with expected := e, pending := es }

abbrev Step := Option (Event × EventReader)

def emptyScalar : Event := .scalar none none .plain ""

/-! ## Nodes -/

structure Properties where
  anchor : Option String
  tag : Option (String × String)

/-- An anchor and a tag, in either order. -/
def properties : List Token → Properties × List Token
  | .anchor a :: .tag h s :: ts => (⟨some a, some (h, s)⟩, ts)
  | .tag h s :: .anchor a :: ts => (⟨some a, some (h, s)⟩, ts)
  | .anchor a :: ts => (⟨some a, none⟩, ts)
  | .tag h s :: ts => (⟨none, some (h, s)⟩, ts)
  | ts => (⟨none, none⟩, ts)

/-- The tag in full; none if its handle has no meaning. -/
def fullTag? (r : EventReader) : Option (String × String) → Option (Option String)
  | none => some none
  | some (handle, suffix) =>
    if handle.isEmpty then some (some suffix)
    else (r.handles.lookup handle).map fun stem => some (stem ++ suffix)

/-- A node. Blocks start only where `block` holds, and sequences without indentation only under a
key. A lone mark as tag says that a scalar has no tag. -/
def node (r : EventReader) (block indentless : Bool) : Step :=
  match r.tokens with
  | .reference a :: ts => some (.reference a, (r.after ts).leave)
  | tokens => do
    let (p, tokens) := properties tokens
    let anchor := p.anchor
    let tag ← r.fullTag? p.tag
    match tokens with
    | [] => none
    | .scalar style text :: ts =>
      let tag := if tag == some "!" then none else tag
      some (.scalar anchor tag style text, (r.after ts).leave)
    | .flowSequenceStart :: ts =>
      some (.sequenceStart anchor tag, (r.after ts).expect (.flowEntry true))
    | .flowMappingStart :: ts =>
      some (.mappingStart anchor tag, (r.after ts).expect (.flowKey true))
    | t :: ts =>
      if indentless && t = .blockEntry then
        some (.sequenceStart anchor tag, (r.after (t :: ts)).expect .indentlessEntry)
      else if block && t = .blockSequenceStart then
        some (.sequenceStart anchor tag, (r.after ts).expect .blockEntry)
      else if block && t = .blockMappingStart then
        some (.mappingStart anchor tag, (r.after ts).expect .blockKey)
      else if anchor.isSome || tag.isSome then
        some (.scalar anchor tag .plain "", (r.after (t :: ts)).leave)
      else none

/-- A node, then `e`; or an empty scalar before a token that ends one. -/
def nodeUnless (r : EventReader) (ends : List Token) (block indentless : Bool)
    (tokens : List Token) (e : Expectation) : Step :=
  match tokens with
  | [] => none
  | t :: _ =>
    if ends.contains t then some (emptyScalar, (r.after tokens).expect e)
    else ((r.after tokens).afterwards e).node block indentless

/-! ## Documents -/

structure Directives where
  version : Bool
  handles : List (String × String)

/-- Each directive at most once, and of the versions the first two. -/
def directives (d : Directives) : List Token → Option (Directives × List Token)
  | .version major minor :: ts =>
    if d.version || major != 1 || (minor != 1 && minor != 2) then none
    else directives { d with version := true } ts
  | .tagHandle handle stem :: ts =>
    if (d.handles.lookup handle).isSome then none
    else directives { d with handles := d.handles ++ [(handle, stem)] } ts
  | ts => some (d, ts)

def documentAt (r : EventReader) (explicit : Bool) (tokens : List Token) : Step :=
  match tokens with
  | [] => none
  | .streamEnd :: ts => some (.streamEnd, (r.after ts).expect .nothing)
  | t :: _ =>
    let directive := match t with
      | .version .. | .tagHandle .. | .documentStart => true
      | _ => false
    if explicit || directive then do
      let (d, tokens) ← directives ⟨false, []⟩ tokens
      match tokens with
      | .documentStart :: ts =>
        let r := { (r.after ts) with handles := d.handles ++ defaultHandles }
        some (.documentStart, (r.afterwards .documentEnd).expect .documentContent)
      | _ => none
    else
      let r := { (r.after tokens) with handles := defaultHandles }
      some (.documentStart, (r.afterwards .documentEnd).expect .blockNode)

/-- Nothing between two markers is an empty scalar. -/
def documentContent (r : EventReader) : Step :=
  match r.tokens with
  | [] => none
  | t :: _ =>
    let ends := match t with
      | .version .. | .tagHandle .. | .documentStart | .documentEnd | .streamEnd => true
      | _ => false
    if ends then some (emptyScalar, r.leave) else r.node true false

def documentEnd (r : EventReader) : Step :=
  match r.tokens with
  | [] => none
  | .documentEnd :: ts => some (.documentEnd, (r.after ts).expect .document)
  | _ => some (.documentEnd, r.expect .document)

/-! ## Collections -/

def blockEntry (r : EventReader) : Step :=
  match r.tokens with
  | .blockEntry :: ts => r.nodeUnless [.blockEntry, .blockEnd] true false ts .blockEntry
  | .blockEnd :: ts => some (.sequenceEnd, (r.after ts).leave)
  | _ => none

def indentlessEntry (r : EventReader) : Step :=
  match r.tokens with
  | [] => none
  | .blockEntry :: ts =>
    r.nodeUnless [.blockEntry, .key, .value, .blockEnd] true false ts .indentlessEntry
  | _ => some (.sequenceEnd, r.leave)

def blockKey (r : EventReader) : Step :=
  match r.tokens with
  | .key :: ts => r.nodeUnless [.key, .value, .blockEnd] true true ts .blockValue
  | .blockEnd :: ts => some (.mappingEnd, (r.after ts).leave)
  | _ => none

def blockValue (r : EventReader) : Step :=
  match r.tokens with
  | [] => none
  | .value :: ts => r.nodeUnless [.key, .value, .blockEnd] true true ts .blockKey
  | _ => some (emptyScalar, r.expect .blockKey)

/-- What follows the comma that parts an entry from the one before. -/
def entryTokens (first : Bool) : List Token → Option (List Token)
  | .flowEntry :: ts => some (if first then .flowEntry :: ts else ts)
  | ts => if first then some ts else none

def flowEntry (r : EventReader) (first : Bool) : Step :=
  match r.tokens with
  | .flowSequenceEnd :: ts => some (.sequenceEnd, (r.after ts).leave)
  | tokens => do
    match ← entryTokens first tokens with
    | [] => none
    | .flowSequenceEnd :: ts => some (.sequenceEnd, (r.after ts).leave)
    | .key :: ts => some (.mappingStart none none, (r.after ts).expect .pairKey)
    | ts => ((r.after ts).afterwards (.flowEntry false)).node false false

/-- Where the key is missing, the token in its place is passed over. -/
def pairKey (r : EventReader) : Step :=
  match r.tokens with
  | [] => none
  | t :: ts =>
    if [Token.value, .flowEntry, .flowSequenceEnd].contains t then
      some (emptyScalar, (r.after ts).expect .pairValue)
    else (r.afterwards .pairValue).node false false

def pairValue (r : EventReader) : Step :=
  match r.tokens with
  | [] => none
  | .value :: ts => r.nodeUnless [.flowEntry, .flowSequenceEnd] false false ts .pairEnd
  | _ => some (emptyScalar, r.expect .pairEnd)

def flowKey (r : EventReader) (first : Bool) : Step :=
  match r.tokens with
  | .flowMappingEnd :: ts => some (.mappingEnd, (r.after ts).leave)
  | tokens => do
    match ← entryTokens first tokens with
    | [] => none
    | .flowMappingEnd :: ts => some (.mappingEnd, (r.after ts).leave)
    | .key :: ts =>
      r.nodeUnless [.value, .flowEntry, .flowMappingEnd] false false ts .flowValue
    | ts => ((r.after ts).afterwards .flowNoValue).node false false

def flowValue (r : EventReader) : Step :=
  match r.tokens with
  | [] => none
  | .value :: ts => r.nodeUnless [.flowEntry, .flowMappingEnd] false false ts (.flowKey false)
  | _ => some (emptyScalar, r.expect (.flowKey false))

def next (r : EventReader) : Step :=
  match r.expected with
  | .firstDocument => r.documentAt false r.tokens
  | .document => r.documentAt true (r.tokens.dropWhile (· == .documentEnd))
  | .documentContent => r.documentContent
  | .documentEnd => r.documentEnd
  | .blockNode => r.node true false
  | .blockEntry => r.blockEntry
  | .indentlessEntry => r.indentlessEntry
  | .blockKey => r.blockKey
  | .blockValue => r.blockValue
  | .flowEntry first => r.flowEntry first
  | .pairKey => r.pairKey
  | .pairValue => r.pairValue
  | .pairEnd => if r.tokens.isEmpty then none else some (.mappingEnd, r.expect (.flowEntry false))
  | .flowKey first => r.flowKey first
  | .flowValue => r.flowValue
  | .flowNoValue => if r.tokens.isEmpty then none else some (emptyScalar, r.expect (.flowKey false))
  | .nothing => none

def run : Nat → EventReader → List Event
  | 0, _ => []
  | fuel + 1, r =>
    match r.next with
    | none => []
    | some (e, r) => e :: run fuel r

end EventReader

/-- The events of a stream; they end with the end of the stream exactly if there is no error. No
token stands for more than three events, and no more than two come after the last. -/
def events (ts : List Token) : List Event :=
  (EventReader.start ts).run (4 * ts.length + 8)

end ProgramAnalysis.Yaml
