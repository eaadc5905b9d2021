import Phrasebook.Toml.Scalar

namespace Phrasebook.Toml

namespace Reader

def comment? : List Char → Option (List Char)
  | '#' :: r => some (r.dropWhile isPlain)
  | _ => none

def lineEnd? : List Char → Option (List Char)
  | [] => some []
  | cs => newline? cs

def lineRest? (cs : List Char) : Option (List Char) :=
  let cs := skipSpace cs
  lineEnd? ((comment? cs).getD cs)

theorem length_skipSpace (cs : List Char) : (skipSpace cs).length ≤ cs.length :=
  (List.dropWhile_suffix _).length_le

def skipGap? (cs : List Char) : Option (List Char) :=
  match _h : skipSpace cs with
  | [] => some []
  | c :: r =>
    if c = '#' then
      match _h' : newline? (r.dropWhile isPlain) with
      | some r' => skipGap? r'
      | none => none
    else if c = '\n' ∨ c = '\r' then
      match _h' : newline? (c :: r) with
      | some r' => skipGap? r'
      | none => none
    else some (c :: r)
termination_by cs.length
decreasing_by
  all_goals
    have h₁ := length_skipSpace cs
    have h₂ := length_newline _h'
    rw [_h] at h₁
    simp only [List.length_cons] at h₁ h₂
  · have h₃ := (List.dropWhile_suffix (l := r) isPlain).length_le
    omega
  · omega

/-! Keys. -/

def isBare (c : Char) : Bool := c.isAlphanum || c = '-' || c = '_'

def simpleKey? : List Char → Option (Taken String)
  | '"' :: r => (lineString '"' true r).map fun p => (.ofList p.1, p.2)
  | '\'' :: r => (lineString '\'' false r).map fun p => (.ofList p.1, p.2)
  | cs =>
    match cs.takeWhile isBare with
    | [] => none
    | name => some (.ofList name, cs.dropWhile isBare)

def keyParts? : Nat → List Char → Option (Taken (List String))
  | 0, _ => none
  | fuel + 1, cs => do
    let (part, r) ← simpleKey? (skipSpace cs)
    match skipSpace r with
    | '.' :: r => (keyParts? fuel r).map fun p => (part :: p.1, p.2)
    | r => some ([part], r)

def maxDepth : Nat := 80

structure Key where
  path : List String
  last : String

def require {α : Type} : Option α → Except Fault α
  | some a => .ok a
  | none => .error .malformed

def key (cs : List Char) : Except Fault (Taken Key) := do
  let (parts, r) ← require (keyParts? (maxDepth - 1) cs)
  let last ← require parts.getLast?
  .ok (⟨parts.dropLast, last⟩, r)

def startsKey : List Char → Bool
  | [] => false
  | c :: _ => c = '"' || c = '\'' || isBare c

/-! Values. `depth` is one more than the brackets that may still be opened. -/

structure Pair where
  key : Key
  node : Node

def inlineItems (pairs : List Pair) : Except Fault Items :=
  pairs.foldlM (fun items p => items.define .inlineKey none .inline p.key.path p.key.last p.node) []

mutual

def value : Nat → Nat → List Char → Except Fault (Taken Node)
  | 0, _, _ => .error .malformed
  | _, _, [] => .error .malformed
  | fuel + 1, depth, c :: r =>
    if c = '[' then
      if depth ≤ 1 then .error .malformed
      else do
        let (nodes, r) ← elements fuel (depth - 1) r
        .ok (.array nodes, r)
    else if c = '\x7b' then
      if depth ≤ 1 then .error .malformed
      else do
        let (ps, r) ← pairs fuel (depth - 1) r
        let items ← inlineItems ps
        let r ← require (lit? '\x7d' (skipSpace r))
        .ok (.table .inline items, r)
    else require (scalar? (c :: r))

def elements : Nat → Nat → List Char → Except Fault (Taken (List Node))
  | 0, _, _ => .error .malformed
  | fuel + 1, depth, cs => do
    match ← require (skipGap? cs) with
    | ']' :: r => .ok ([], r)
    | r => do
      let (node, r) ← value fuel depth r
      match ← require (skipGap? r) with
      | ',' :: r => do
        let (nodes, r) ← elements fuel depth r
        .ok (node :: nodes, r)
      | ']' :: r => .ok ([node], r)
      | _ => .error .malformed

def pairs : Nat → Nat → List Char → Except Fault (Taken (List Pair))
  | 0, _, _ => .error .malformed
  | fuel + 1, depth, cs =>
    if startsKey (skipSpace cs) then do
      let (k, r) ← key cs
      let r ← require (lit? '=' r)
      let (node, r) ← value fuel depth (skipSpace r)
      match skipSpace r with
      | ',' :: r =>
        match ← pairs fuel depth r with
        | ([], _) => .ok ([⟨k, node⟩], ',' :: r)
        | (ps, r) => .ok (⟨k, node⟩ :: ps, r)
      | r => .ok ([⟨k, node⟩], r)
    else .ok ([], cs)

end

/-- Each bracket, element and pair takes a character at the least. -/
def enough (cs : List Char) : Nat := 3 * cs.length + 3

/-! Documents. -/

structure State where
  root : Items
  /-- The path of the open table, empty for the root. -/
  path : List String
  isElement : Bool
  items : Items

def State.close (s : State) : Except Fault Items :=
  match s.path.getLast? with
  | none => .ok s.items
  | some last =>
    s.root.modify .header (fun _ inner =>
      .ok (match s.isElement, inner.lookup last with
        | true, some (.tables each) => inner.set last (.tables (each ++ [s.items]))
        | true, _ => inner.set last (.tables [s.items])
        | false, _ => inner.set last (.table .header s.items))) .header s.path.dropLast

def keyText (key : String) : String :=
  if key ≠ "" ∧ key.toList.all isBare then key else Text.quote key

def clash (k : Key) : Fault := .duplicateKey (keyText k.last) (some k.path)

def openTable (root : Items) (k : Key) : Except Fault State := do
  let (items, root) ← root.visit .header (fun _ inner =>
    match inner.lookup k.last with
    | none => .ok ([], inner)
    | some (.table .implied items) => .ok (items, inner.erase k.last)
    | some _ => .error (clash k)) .header [] k.path
  .ok ⟨root, k.path ++ [k.last], false, items⟩

def openElement (root : Items) (k : Key) : Except Fault State := do
  let root ← root.modify .header (fun _ inner =>
    match inner.lookup k.last with
    | none => .ok (inner ++ [(k.last, .tables [])])
    | some (.tables _) => .ok inner
    | some _ => .error (clash k)) .header k.path
  .ok ⟨root, k.path ++ [k.last], true, []⟩

def header (s : State) (cs : List Char) : Except Fault (Taken State) := do
  match cs with
  | '[' :: r => do
    let (k, r) ← key r
    let r ← require (lit? ']' r)
    let r ← require (lit? ']' r)
    let r ← require (lineRest? r)
    let s ← openElement (← s.close) k
    .ok (s, r)
  | r => do
    let (k, r) ← key r
    let r ← require (lit? ']' r)
    let r ← require (lineRest? r)
    let s ← openTable (← s.close) k
    .ok (s, r)

def pair (s : State) (cs : List Char) : Except Fault (Taken State) := do
  let (k, r) ← key cs
  let r ← require (lit? '=' r)
  let r := skipSpace r
  let (node, r) ← value (enough r) maxDepth r
  let r ← require (lineRest? r)
  let items ← s.items.define .key (some s.path) .header k.path k.last node
  .ok ({ s with items }, r)

def lines : Nat → State → List Char → Except Fault State
  | 0, _, _ => .error .malformed
  | fuel + 1, s, cs =>
    match skipSpace cs with
    | [] => .ok s
    | '#' :: r => do
      let r ← require (lineEnd? (r.dropWhile isPlain))
      lines fuel s r
    | '\n' :: r => lines fuel s r
    | '\r' :: r => do
      let r ← require (lit? '\n' r)
      lines fuel s r
    | '[' :: r => do
      let (s, r) ← header s r
      lines fuel s r
    | r => do
      let (s, r) ← pair s r
      lines fuel s r

end Reader

def parse (text : List Char) : Except Fault Items := do
  let text := match text with
    | '\uFEFF' :: r => r
    | r => r
  let s ← Reader.lines (text.length + 1) ⟨[], [], false, []⟩ text
  s.close

end Phrasebook.Toml
