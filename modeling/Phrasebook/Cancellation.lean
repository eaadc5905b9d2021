import Phrasebook.Error

namespace Phrasebook

structure Token where
  flag : Nat
  deriving DecidableEq

structure TokenPool where
  raised : List Bool
  deriving DecidableEq

namespace TokenPool

def empty : TokenPool := ⟨[]⟩

def fresh (p : TokenPool) : Token × TokenPool := (⟨p.raised.length⟩, ⟨p.raised ++ [false]⟩)

def cancel (p : TokenPool) (t : Token) : TokenPool := ⟨p.raised.set t.flag true⟩

def isCancelled (p : TokenPool) (t : Token) : Bool := p.raised[t.flag]?.getD false

def check (p : TokenPool) (t : Token) : Except Error Unit :=
  if p.isCancelled t then .error .cancelled else .ok ()

end TokenPool

end Phrasebook
