namespace Phrasebook.Text.Utf8

def encodeChar (c : Char) : List UInt8 :=
  let n := c.toNat
  if n < 0x80 then [.ofNat n]
  else if n < 0x800 then [.ofNat (0xC0 + n / 64), .ofNat (0x80 + n % 64)]
  else if n < 0x10000 then
    [.ofNat (0xE0 + n / 4096), .ofNat (0x80 + n / 64 % 64), .ofNat (0x80 + n % 64)]
  else
    [.ofNat (0xF0 + n / 262144), .ofNat (0x80 + n / 4096 % 64), .ofNat (0x80 + n / 64 % 64),
      .ofNat (0x80 + n % 64)]

def encode (cs : List Char) : List UInt8 := cs.flatMap encodeChar

def isTail (b : UInt8) : Bool := 0x80 ≤ b && b ≤ 0xBF

/-- The second bytes that may follow a leading byte: no overlong form, no surrogate, nothing above
the last code point. -/
def isSecond (lead b : UInt8) : Bool :=
  if lead == 0xE0 then 0xA0 ≤ b && b ≤ 0xBF
  else if lead == 0xED then 0x80 ≤ b && b ≤ 0x9F
  else if lead == 0xF0 then 0x90 ≤ b && b ≤ 0xBF
  else if lead == 0xF4 then 0x80 ≤ b && b ≤ 0x8F
  else isTail b

def low (b : UInt8) : Nat := b.toNat % 64

inductive Head
  | char : Char → List UInt8 → Head
  | broken : List UInt8 → Head

def Head.rest : Head → List UInt8
  | .char _ r => r
  | .broken r => r

def head (b : UInt8) (bs : List UInt8) : Head :=
  if b < 0x80 then .char (.ofNat b.toNat) bs
  else if 0xC2 ≤ b && b ≤ 0xDF then
    match bs with
    | b₁ :: r =>
      if isTail b₁ then .char (.ofNat ((b.toNat - 0xC0) * 64 + low b₁)) r else .broken bs
    | [] => .broken []
  else if 0xE0 ≤ b && b ≤ 0xEF then
    match bs with
    | b₁ :: b₂ :: r =>
      if !isSecond b b₁ then .broken bs
      else if !isTail b₂ then .broken (b₂ :: r)
      else .char (.ofNat ((b.toNat - 0xE0) * 4096 + low b₁ * 64 + low b₂)) r
    | [b₁] => if isSecond b b₁ then .broken [] else .broken [b₁]
    | [] => .broken []
  else if 0xF0 ≤ b && b ≤ 0xF4 then
    match bs with
    | b₁ :: r₁ =>
      if !isSecond b b₁ then .broken bs
      else
        match r₁ with
        | b₂ :: r₂ =>
          if !isTail b₂ then .broken r₁
          else
            match r₂ with
            | b₃ :: r₃ =>
              if !isTail b₃ then .broken r₂
              else
                .char
                  (.ofNat ((b.toNat - 0xF0) * 262144 + low b₁ * 4096 + low b₂ * 64 + low b₃)) r₃
            | [] => .broken []
        | [] => .broken []
    | [] => .broken []
  else .broken bs

theorem length_head_rest (b : UInt8) (bs : List UInt8) : (head b bs).rest.length ≤ bs.length := by
  unfold head
  repeat' split
  all_goals simp [Head.rest] <;> omega

def decode : List UInt8 → Option (List Char)
  | [] => some []
  | b :: bs =>
    match _h : head b bs with
    | .char c r => (decode r).map (c :: ·)
    | .broken _ => none
termination_by bs => bs.length
decreasing_by
  have := length_head_rest b bs
  rw [_h] at this
  simp only [Head.rest, List.length_cons] at *
  omega

def decodeLossy : List UInt8 → List Char
  | [] => []
  | b :: bs =>
    match _h : head b bs with
    | .char c r => c :: decodeLossy r
    | .broken r => '\uFFFD' :: decodeLossy r
termination_by bs => bs.length
decreasing_by
  all_goals
    have := length_head_rest b bs
    rw [_h] at this
    simp only [Head.rest, List.length_cons] at *
    omega

def ofString (s : String) : List UInt8 := encode s.toList

def decode? (bs : List UInt8) : Option String := (decode bs).map .ofList

def toStringLossy (bs : List UInt8) : String := .ofList (decodeLossy bs)

def length (cs : List Char) : Nat := cs.foldr (fun c n => c.utf8Size + n) 0

end Phrasebook.Text.Utf8
