import SelfReference.Error

/-!
# Formulas as they are written

A definition file writes literals by name and lets a conjunction or disjunction have any number
of operands.  Such a written formula is resolved into a formula with two operands to a node,
grouped to the left; every formula has a written form, which resolves to it.
-/

namespace SelfReference

/-- A formula as a definition file writes it. -/
inductive Written where
  | lit (text : String)
  | ref (name : String)
  | neg (operand : Written)
  | conj (operands : List Written)
  | disj (operands : List Written)

namespace Written

/-! ### Resolving -/

/-- Joins formulas from left to right; there must be one. -/
def joined (sentence connective : String) (join : Formula → Formula → Formula) :
    List Formula → Except Error Formula
  | [] => .error (.malformedFormula sentence (.noOperands connective))
  | f :: fs => .ok (fs.foldl join f)

mutual

/-- The formula of a written one.  The first fault from the left is reported for the sentence that
the formula defines. -/
def resolve (sentence : String) : Written → Except Error Formula
  | lit text =>
    match Truth.parse? text with
    | some v => .ok (.lit v)
    | none => .error (.malformedFormula sentence (.unknownLiteral text))
  | ref name => .ok (.ref name)
  | neg w => (resolve sentence w).map .neg
  | conj ws => (resolveAll sentence ws).bind (joined sentence "and" .conj)
  | disj ws => (resolveAll sentence ws).bind (joined sentence "or" .disj)

/-- The formulas of operands, or the first fault. -/
def resolveAll (sentence : String) : List Written → Except Error (List Formula)
  | [] => .ok []
  | w :: ws => (resolve sentence w).bind fun f => (resolveAll sentence ws).map (f :: ·)

end

/-! ### The written form of a formula -/

/-- Writes a formula, every literal by its long name. -/
def ofFormula : Formula → Written
  | .lit v => lit v.name
  | .ref n => ref n
  | .neg f => neg (ofFormula f)
  | .conj f g => conj [ofFormula f, ofFormula g]
  | .disj f g => disj [ofFormula f, ofFormula g]

/-- A formula is what its written form resolves to, whichever sentence is named in errors. -/
theorem resolve_ofFormula (sentence : String) (f : Formula) :
    resolve sentence (ofFormula f) = .ok f := by
  induction f with
  | lit v => simp only [ofFormula, resolve, Truth.parse?_name]
  | ref n => rfl
  | neg f ih => simp only [ofFormula, resolve, ih, Except.map]
  | conj f g ihf ihg =>
    simp only [ofFormula, resolve, resolveAll, ihf, ihg, Except.map, Except.bind, joined,
      List.foldl_cons, List.foldl_nil]
  | disj f g ihf ihg =>
    simp only [ofFormula, resolve, resolveAll, ihf, ihg, Except.map, Except.bind, joined,
      List.foldl_cons, List.foldl_nil]

mutual

/-- Two written formulas that are the same word for word. -/
def same : Written → Written → Bool
  | lit s, lit t => s = t
  | ref m, ref n => m = n
  | neg v, neg w => same v w
  | conj vs, conj ws => sameAll vs ws
  | disj vs, disj ws => sameAll vs ws
  | _, _ => false

/-- The same of operands, one by one. -/
def sameAll : List Written → List Written → Bool
  | [], [] => true
  | v :: vs, w :: ws => same v w && sameAll vs ws
  | _, _ => false

end

end Written

end SelfReference
