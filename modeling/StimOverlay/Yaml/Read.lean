import StimOverlay.Yaml.Node
import StimOverlay.Yaml.Token

/-! Documents from their tokens. A node may be absent behind a dash, around a colon, and between the marks
of a document. -/

namespace StimOverlay.Yaml

/-- The tokens that no item or entry of a block collection starts with. -/
def endsBlockNode : List Token → Bool
  | .key :: _ | .value :: _ | .blockEnd :: _ => true
  | _ => false

/-- Whether nothing stands in front of a comma or the closing bracket. -/
def endsFlowNode (closing : Token) (tokens : List Token) : Bool :=
  tokens.head?.any fun t => t == .comma || t == closing

/-- Whether nothing stands in front of a colon, a comma or the closing bracket. -/
def endsFlowKey (closing : Token) (tokens : List Token) : Bool :=
  tokens.head? == some .value || endsFlowNode closing tokens

/-- The tokens behind the comma in front of a further item. -/
def afterComma (isFirst : Bool) (tokens : List Token) : Option (List Token) :=
  match isFirst, tokens with
  | true, tokens => some tokens
  | false, .comma :: rest => some rest
  | false, _ => none

mutual

/-- Reads a node, which is a block collection only if `inBlock`. The items of a sequence may stand in the
column of the key in front of them if `belowKey`. -/
def readNode (inBlock belowKey : Bool) : Nat → List Token → Option (Node × List Token)
  | 0, _ => none
  | fuel + 1, tokens =>
      match tokens with
      | .scalar quoted text :: rest => some (.scalar quoted text, rest)
      | .openBracket :: rest => do
          let (items, rest) ← readBracketItems true fuel rest
          some (.sequence items, rest)
      | .openBrace :: rest => do
          let (entries, rest) ← readBraceEntries true fuel rest
          some (.mapping entries, rest)
      | .sequenceStart :: rest => do
          guard inBlock
          let (items, rest) ← readItems fuel rest
          some (.sequence items, rest)
      | .mappingStart :: rest => do
          guard inBlock
          let (entries, rest) ← readEntries fuel rest
          some (.mapping entries, rest)
      | .dash :: _ => do
          guard belowKey
          let (items, rest) ← readItemsBelowKey fuel tokens
          some (.sequence items, rest)
      | _ => none

/-- Reads the items of a block sequence and its end. -/
def readItems : Nat → List Token → Option (List Node × List Token)
  | 0, _ => none
  | fuel + 1, .dash :: rest => do
      let (item, rest) ←
        match rest with
        | .dash :: _ | .blockEnd :: _ => some (Node.absent, rest)
        | _ => readNode true false fuel rest
      let (items, rest) ← readItems fuel rest
      some (item :: items, rest)
  | _, .blockEnd :: rest => some ([], rest)
  | _, _ => none

/-- Reads the items of a sequence that stands in the column of its key. -/
def readItemsBelowKey : Nat → List Token → Option (List Node × List Token)
  | 0, _ => none
  | fuel + 1, .dash :: rest => do
      let (item, rest) ←
        match rest with
        | .dash :: _ => some (Node.absent, rest)
        | _ => if endsBlockNode rest then some (Node.absent, rest) else readNode true false fuel rest
      let (items, rest) ← readItemsBelowKey fuel rest
      some (item :: items, rest)
  | _, tokens => some ([], tokens)

/-- Reads the entries of a block mapping and its end. -/
def readEntries : Nat → List Token → Option (List (Node × Node) × List Token)
  | 0, _ => none
  | fuel + 1, .key :: rest => do
      let (key, rest) ← readEntryPart fuel rest
      let (value, rest) ←
        match rest with
        | .value :: rest => readEntryPart fuel rest
        | _ => some (Node.absent, rest)
      let (entries, rest) ← readEntries fuel rest
      some ((key, value) :: entries, rest)
  | _, .blockEnd :: rest => some ([], rest)
  | _, _ => none

/-- Reads a key or a value of a block mapping. -/
def readEntryPart : Nat → List Token → Option (Node × List Token)
  | 0, _ => none
  | fuel + 1, tokens =>
      if endsBlockNode tokens then some (Node.absent, tokens) else readNode true true fuel tokens

/-- Reads the items of a sequence in brackets and the closing one. An item may be a single entry of a
mapping; if its key is absent, what stands behind it is passed over. -/
def readBracketItems (isFirst : Bool) : Nat → List Token → Option (List Node × List Token)
  | 0, _ => none
  | _, .closeBracket :: rest => some ([], rest)
  | fuel + 1, tokens => do
      let tokens ← afterComma isFirst tokens
      match tokens with
      | .closeBracket :: rest => some ([], rest)
      | .key :: rest =>
          let (key, rest) ←
            if endsFlowKey .closeBracket rest then some (Node.absent, rest.drop 1)
            else readNode false false fuel rest
          let (value, rest) ← readFlowValue .closeBracket fuel rest
          let (items, rest) ← readBracketItems false fuel rest
          some (.mapping [(key, value)] :: items, rest)
      | _ =>
          let (item, rest) ← readNode false false fuel tokens
          let (items, rest) ← readBracketItems false fuel rest
          some (item :: items, rest)

/-- Reads the entries of a mapping in braces and the closing one. A node that is no key has no value. -/
def readBraceEntries (isFirst : Bool) : Nat → List Token → Option (List (Node × Node) × List Token)
  | 0, _ => none
  | _, .closeBrace :: rest => some ([], rest)
  | fuel + 1, tokens => do
      let tokens ← afterComma isFirst tokens
      match tokens with
      | .closeBrace :: rest => some ([], rest)
      | .key :: rest =>
          let (key, rest) ←
            if endsFlowKey .closeBrace rest then some (Node.absent, rest)
            else readNode false false fuel rest
          let (value, rest) ← readFlowValue .closeBrace fuel rest
          let (entries, rest) ← readBraceEntries false fuel rest
          some ((key, value) :: entries, rest)
      | _ =>
          let (key, rest) ← readNode false false fuel tokens
          let (entries, rest) ← readBraceEntries false fuel rest
          some ((key, Node.absent) :: entries, rest)

/-- Reads the value of an entry within brackets, if there is one. -/
def readFlowValue (closing : Token) : Nat → List Token → Option (Node × List Token)
  | 0, _ => none
  | fuel + 1, .value :: rest =>
      if endsFlowNode closing rest then some (Node.absent, rest) else readNode false false fuel rest
  | _, tokens => some (Node.absent, tokens)

end

/-- Reads the node of a document between its marks. -/
def readContent (fuel : Nat) (tokens : List Token) : Option (Node × List Token) :=
  match tokens with
  | [] => some (.absent, [])
  | .documentStart :: rest =>
      match rest with
      | [] | .documentStart :: _ | .documentEnd :: _ => some (.absent, rest)
      | _ => readNode true false fuel rest
  | _ => readNode true false fuel tokens

/-- The document that tokens make up, if they make up one only. Two steps are enough for a token. -/
def Node.ofTokens? (tokens : List Token) : Option Node := do
  let (node, rest) ← readContent (2 * tokens.length + 2) tokens
  if rest.all (· == .documentEnd) then some node else none

/-- Reads a document; one that holds nothing is an absent node. -/
def read? (text : List Char) : Option Node :=
  if text.all isPrintable then (tokens? (unifyBreaks text)).bind Node.ofTokens? else none

end StimOverlay.Yaml
