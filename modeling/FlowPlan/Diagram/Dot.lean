/-!
Directed graphs in the DOT language.

A diagram is a tree of statements, and its text follows from the tree.  Free text stands only
between quotes, where a backslash takes the next character with it; quotes and backslashes of the
text are therefore written with a backslash in front.
-/

namespace FlowPlan
namespace Dot

/-- What a quoted string is made of. -/
inductive Piece
  | text (s : String)
  | lineBreak
deriving DecidableEq, Repr

inductive Value
  | word (s : String)
  | quoted (pieces : List Piece)
deriving DecidableEq, Repr

structure Attribute where
  key : String
  value : Value
deriving DecidableEq, Repr

inductive Statement
  /-- An empty line. -/
  | blank
  /-- An attribute of the enclosing graph. -/
  | setting (a : Attribute)
  /-- Attributes that all nodes or all edges start with. -/
  | defaults (target : String) (attributes : List Attribute)
  | node (id : String) (attributes : List Attribute)
  | edge (tail head : String) (attributes : List Attribute)
  | cluster (id : String) (body : List Statement)

def escapeChar (c : Char) : List Char := if c = '\\' ∨ c = '"' then ['\\', c] else [c]

/-- Text as it stands between quotes. -/
def escape (s : String) : String := String.ofList (s.toList.flatMap escapeChar)

namespace Piece

def render : Piece → String
  | text s => escape s
  | lineBreak => "\\n"

end Piece

namespace Value

def render : Value → String
  | word s => s
  | quoted pieces => "\"" ++ String.join (pieces.map Piece.render) ++ "\""

/-- A quoted string of one piece. -/
def string (s : String) : Value := quoted [.text s]

end Value

namespace Attribute

def render (a : Attribute) : String := s!"{a.key}={a.value.render}"

end Attribute

/-- Attributes in brackets, or nothing. -/
def renderAttributes : List Attribute → String
  | [] => ""
  | as => " [" ++ String.intercalate ", " (as.map Attribute.render) ++ "]"

mutual

/-- The lines of a statement, each behind the indentation of its depth. -/
def Statement.render (indent : String) : Statement → String
  | .blank => "\n"
  | .setting a => s!"{indent}{a.render};\n"
  | .defaults target as => s!"{indent}{target}{renderAttributes as};\n"
  | .node id as => s!"{indent}{id}{renderAttributes as};\n"
  | .edge tail head as => s!"{indent}{tail} -> {head}{renderAttributes as};\n"
  | .cluster id body =>
    s!"{indent}subgraph cluster_{id} \x7b\n" ++ renderBody (indent ++ "    ") body
      ++ s!"{indent}\x7d\n"

def renderBody (indent : String) : List Statement → String
  | [] => ""
  | s :: ss => s.render indent ++ renderBody indent ss

end

/-- The statements that every diagram begins with. -/
def header : List Statement :=
  [.setting ⟨"rankdir", .word "LR"⟩,
    .defaults "node" [⟨"fontname", .string "Helvetica"⟩, ⟨"fontsize", .word "10"⟩],
    .defaults "edge" [⟨"fontname", .string "Helvetica"⟩, ⟨"fontsize", .word "9"⟩]]

/-- A whole diagram under a name. -/
def document (name : String) (body : List Statement) : String :=
  s!"digraph {name} \x7b\n" ++ renderBody "    " (header ++ body) ++ "\x7d\n"

end Dot
end FlowPlan
