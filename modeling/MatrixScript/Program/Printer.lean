import MatrixScript.Program

/-!
# Printing programs

One spelling for every program: a blank on either side of a binary operator and after a comma, and
none elsewhere inside an expression.
-/

namespace MatrixScript

def listText (texts : List String) : String := ", ".intercalate texts

mutual

def Operand.text : Operand → String
  | .number n => toString n.value.toInt
  | .symbol s => s.value
  | .call c => callText c
  | .matrix m => matrixText m

def callText : Application Operand → String
  | ⟨name, args, _, _⟩ => name.value ++ "(" ++ listText (expressionTexts args) ++ ")"

def matrixText : Bracketed (Bracketed (Infix Operand)) → String
  | ⟨rows, _⟩ => "[" ++ listText (rowTexts rows) ++ "]"

def rowTexts : List (Bracketed (Infix Operand)) → List String
  | [] => []
  | row :: rows => rowText row :: rowTexts rows

def rowText : Bracketed (Infix Operand) → String
  | ⟨elements, _⟩ => "[" ++ listText (expressionTexts elements) ++ "]"

def expressionTexts : List (Infix Operand) → List String
  | [] => []
  | e :: es => expressionText e :: expressionTexts es

def expressionText : Infix Operand → String
  | ⟨items, _⟩ => itemsText items

def itemsText : List (Item Operand) → String
  | [] => ""
  | item :: items => itemText item ++ itemsText items

def itemText : Item Operand → String
  | .operand x => x.text
  | .binary op => " " ++ op.value.symbol ++ " "
  | .unary op => op.value.symbol
  | .opening _ => "("
  | .closing _ => ")"

end

def Declaration.text (d : Declaration) : String :=
  "let " ++ d.name.value ++ " = " ++ expressionText d.value ++ ";"

def Statement.text : Statement → String
  | .declaration d => d.text
  | .call c => callText c ++ ";"

end MatrixScript
