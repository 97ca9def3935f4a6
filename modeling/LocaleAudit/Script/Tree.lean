/-!
# LocaleAudit.Script.Tree

The syntax tree of a script, as far as looking for calls with a literal argument needs it: names,
literals, parentheses, member accesses, calls and object properties are told apart, and every other
construct is a group of parts. Parts stand in the order in which they are visited.
-/

namespace LocaleAudit.Script

/-- The constructs that only hold other parts. -/
inductive Construct
  /-- A literal without parts, such as a number or `this`. -/
  | literal
  /-- The word `super`, as the callee of a call. -/
  | superRef
  /-- The word `import`, as the callee of a call. -/
  | importRef
  /-- A member of `super`. -/
  | superMember
  /-- A property of a keyword, such as `new.target`. -/
  | metaProperty
  /-- The name of a private member in front of `in`. -/
  | privateName
  /-- A private member of an object, accessed through an optional chain or not. -/
  | privateMember (chained : Bool)
  /-- A member whose name is computed, accessed through an optional chain or not. -/
  | computedMember (chained : Bool)
  | unary | update | await | yield | binary | conditional | sequence
  /-- An assignment, by the plain sign or by a compound one. -/
  | assignment (plain : Bool)
  | arrow | function | classBody
  /-- An instantiation, with or without a list of arguments. -/
  | new (withArguments : Bool)
  | array | hole | spread | object
  /-- A property that names a variable. -/
  | shorthand
  /-- A property that names a variable and gives it a default, as only patterns may have it. -/
  | shorthandDefault
  /-- A method or an accessor of an object. -/
  | method
  | taggedTemplate
  | asType | satisfiesType | nonNull | typeAssertion | instantiation
  | element
  | pattern
  /-- What was read past although it is malformed. -/
  | invalid
  | typeExpr | statement
deriving Repr, DecidableEq

/-- A syntax tree. -/
inductive Tree
  /-- A name. -/
  | ident (name : String)
  /-- A string literal, with its value if it is text. -/
  | string (value : Option String)
  /-- A template, with the value of its first piece if that is text, and its substitutions. -/
  | template (value : Option String) (substitutions : List Tree)
  /-- An expression in parentheses. -/
  | paren (inner : Tree)
  /-- A named member of an object, accessed through an optional chain or not. -/
  | member (chained : Bool) (object : Tree) (name : String)
  /-- A call and where it starts, with its arguments and type arguments; `chained` if it belongs to
  an optional chain. -/
  | call (chained : Bool) (start : Nat) (callee : Tree) (arguments types : List Tree)
  /-- A property of an object with its name, if that is fixed, the parts of its key, and its
  value. -/
  | property (name : Option String) (key : List Tree) (value : Tree)
  /-- Any other construct. -/
  | group (construct : Construct) (parts : List Tree)
deriving Inhabited

namespace Tree

/-- The parts of a tree, in the order in which they are visited. -/
def children : Tree → List Tree
  | ident _ | string _ => []
  | template _ substitutions => substitutions
  | paren inner => [inner]
  | member _ object _ => [object]
  | call _ _ callee arguments types => callee :: arguments ++ types
  | property _ key value => key ++ [value]
  | group _ parts => parts

/-- A tree without parts. -/
def leaf (construct : Construct) : Tree := group construct []

/-- The tree is a group of the given construct. -/
def isGroup (construct : Construct) : Tree → Bool
  | group c _ => c = construct
  | _ => false

/-- The tree belongs to an optional chain, perhaps behind non-null assertions. -/
def inChain : Tree → Bool
  | member chained _ _ | call chained _ _ _ _ => chained
  | group (.privateMember chained) _ | group (.computedMember chained) _ => chained
  | group .nonNull [inner] => inChain inner
  | _ => false

end Tree

end LocaleAudit.Script
