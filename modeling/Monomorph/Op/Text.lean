import Monomorph.Op.Views

/-!
# Op/Text — operations on one line, for people
-/

namespace Monomorph

/-- Texts separated by commas. -/
def commas (l : List String) : String :=
  String.intercalate ", " l

namespace Rhs

/-- Operands, separated by commas. -/
def texts (as : List Operand) : String :=
  commas (as.map Operand.text)

/-- `name=operand`, separated by commas. -/
def pairTexts (ps : List (String × Operand)) : String :=
  commas (ps.map fun p => p.1 ++ "=" ++ p.2.text)

/-- Between curly brackets. -/
def braced (s : String) : String :=
  "\x7b" ++ s ++ "\x7d"

/-- An item whose own items are copied. -/
def expandText (a : Operand) : String :=
  "expand(" ++ a.text ++ ")"

def text : Rhs Operand → String
  | .const l => l.text
  | .safeString v t _ | .typedString v t _ _ _ => Text.quote v ++ "#" ++ t
  | .constant k => k
  | .fieldDefault k => "default(" ++ k ++ ")"
  | .argVar v | .localVar v => v.name
  | .checkInvariant c _ a => c ++ "(" ++ a.text ++ ")"
  | .checkInvariantVirtual _ a => "$invariant_check(" ++ a.text ++ ")"
  | .construct t as => t ++ "@(" ++ texts as ++ ")"
  | .collectionEmpty t => t ++ braced ""
  | .collectionOf t as => t ++ braced (texts as)
  | .collectionCopies t as => t ++ braced (commas (as.map expandText))
  | .collectionMixed t as =>
      t ++ braced (commas (as.map fun a => if a.1 then expandText a.2 else a.2.text))
  | .tuple _ as => "[" ++ texts as ++ "]"
  | .record _ as => braced (pairTexts as)
  | .ephemeral _ as => "(|" ++ texts as ++ "|)"
  | .atIndex _ a _ i => a.text ++ "." ++ toString i
  | .atIndices _ a _ is => a.text ++ "@[" ++ commas (is.map toString) ++ "]"
  | .atProperty _ a _ p => a.text ++ "." ++ p
  | .atProperties _ a _ ps => a.text ++ braced (commas ps)
  | .atField _ a _ k => a.text ++ "." ++ k
  | .atFields _ a _ ks => a.text ++ braced (commas ks)
  | .asTuple _ a _ soft p | .asRecord _ a _ soft p | .asNominal _ a _ soft p =>
      a.text ++ "#" ++ (if soft then "?" else "") ++ p
  | .withIndices _ a _ us =>
      a.text ++ "<~[" ++ pairTexts (us.map fun u => (toString u.1, u.2)) ++ "]"
  | .withProperties _ a _ us | .withFields _ a _ us => a.text ++ "<~" ++ braced (pairTexts us)
  | .extendTuple _ a _ u _ | .extendRecord _ a _ u _ | .extendObject _ a _ u _ _ =>
      a.text ++ " <+ " ++ u.text
  | .fromEphemeral a _ _ i => a.name ++ "(" ++ toString i ++ ")"
  | .call _ k as => k ++ "::(" ++ texts as ++ ")"
  | .callVirtual _ k (a :: as) _ => a.text ++ "." ++ k ++ "(" ++ texts as ++ ")"
  | .callVirtual _ k [] _ => "?." ++ k ++ "()"
  | .unary o a _ => o ++ a.text
  | .binary _ l o _ r | .equal _ l o _ r _ | .compare _ l o _ r =>
      l.text ++ " " ++ o ++ " " ++ r.text
  | .less _ l _ r _ => l.text ++ " < " ++ r.text
  | .isNone a => "$isNoneType(" ++ a.text ++ ")"
  | .isSome a => "$isSomeType(" ++ a.text ++ ")"
  | .isType _ a t => "$isTypeOf(" ++ a.text ++ ", " ++ t ++ ")"

end Rhs

/-- An operation on one line. -/
def Instr.text : Instr Operand → String
  | .define e t => t.name ++ " = " ++ e.text
  | .assign a t => t.name ++ " = " ++ a.text
  | .truthy a t => t.name ++ " = $truthy(" ++ a.text ++ ")"
  | .store a v => v.name ++ " = " ++ a.text
  | .packSlice a ty t => t.name ++ " = " ++ ty ++ "@(|" ++ a.text ++ "|)"
  | .packExtend b as ty t =>
      t.name ++ " = " ++ ty ++ "@(|" ++ b.text ++ ", " ++ Rhs.texts as ++ "|)"
  | .returnAssign a v => v.name ++ " = " ++ a.text
  | .abort i => "abort -- " ++ i
  | .debug (some a) => "_debug " ++ a.text
  | .debug none => "_debug break"
  | .phi is r =>
      r.name ++ " = (" ++ commas (is.entries.map fun e => e.2.name ++ " -- " ++ e.1) ++ ")"
  | .jump l => "jump " ++ l
  | .branch a x y => "cjump " ++ a.text ++ " " ++ x ++ " " ++ y
  | .branchNone a x y => "njump " ++ a.text ++ " " ++ x ++ " " ++ y
  | .lifetimeStart n _ => "v-begin " ++ n
  | .lifetimeEnd n => "v-end " ++ n

def Op.text (o : Op) : String :=
  o.instr.text

end Monomorph
