import Monomorph.Ty.Basic

/-!
# Ty/Key — the key of every specialization

Two requests with one key are one piece of work.  Bindings are written in the order of their
parameters, so no key depends on the order in which a caller collected them.
-/

namespace Monomorph.Key

/-- `<A=…, B=…>`, nothing for no bindings. -/
def binds (b : Binds) : String :=
  angled (Ty.bindKeys b.entries)

/-- `[file%line%column,…]`, nothing for no closures. -/
def closures : List Closure → String
  | [] => ""
  | cs =>
      let places := cs.map fun c =>
        c.file ++ "%" ++ toString c.position.line ++ "%" ++ toString c.position.column
      "[" ++ String.intercalate "," places ++ "]"

/-- `ns::Name<…>` -/
def type (d : TypeDecl) (b : Binds) : String :=
  d.ns ++ "::" ++ d.name ++ binds b

/-- `ns::name` -/
def global (d : ConstDecl) : String :=
  d.ns ++ "::" ++ d.name

/-- `ns::Name<…>::name` -/
def const (containing : TypeDecl) (b : Binds) (name : String) : String :=
  type containing b ++ "::" ++ name

/-- `ns::Name<…>.name` -/
def field (containing : TypeDecl) (b : Binds) (name : String) : String :=
  type containing b ++ "." ++ name

/-- `ns::name<…>[…]` -/
def function (ns name : String) (b : Binds) (cs : List Closure) : String :=
  ns ++ "::" ++ name ++ binds b ++ closures cs

/-- `ns::Name::name<…>[…]`, for statics and methods: the bindings are those of the containing type
and the callable's own together. -/
def member (containing : TypeDecl) (name : String) (b : Binds) (cs : List Closure) : String :=
  containing.ns ++ "::" ++ containing.name ++ "::" ++ name ++ binds b ++ closures cs

/-- `name<…>`, whatever the receiver. -/
def virtual (name : String) (b : Binds) : String :=
  name ++ binds b

/-- A closure has no name: it is known by where it is written. -/
def lambda (d : InvokeDecl) : String :=
  "fn--" ++ d.file ++ "+" ++ toString d.position.line ++ "##" ++ toString d.position.offset

end Monomorph.Key
