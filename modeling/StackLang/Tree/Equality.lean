import StackLang.Tree

namespace StackLang

mutual

/-- Equality of expressions, the places of their tokens included. -/
def Expr.same : Expr → Expr → Bool
  | .mk n f o r, .mk n' f' o' r' =>
    n == n' && f.same f' && o == o' &&
      match r, r' with
      | none, none => true
      | some e, some e' => e.same e'
      | _, _ => false

def Term.same : Term → Term → Bool
  | .literal t, .literal t' => t == t'
  | .create t s a, .create t' s' a' =>
    t == t' &&
      (match s, s' with
      | none, none => true
      | some e, some e' => e.same e'
      | _, _ => false) &&
      (match a, a' with
      | none, none => true
      | some l, some l' => sameExprs l l'
      | _, _ => false)
  | .path p, .path p' => sameRefs p p'
  | .call t a, .call t' a' =>
    t == t' &&
      match a, a' with
      | none, none => true
      | some l, some l' => sameExprs l l'
      | _, _ => false
  | .group e, .group e' => e.same e'
  | _, _ => false

def sameExprs : List Expr → List Expr → Bool
  | [], [] => true
  | e :: l, e' :: l' => e.same e' && sameExprs l l'
  | _, _ => false

def sameRefs : List Ref → List Ref → Bool
  | [], [] => true
  | .mk t i :: l, .mk t' i' :: l' =>
    t == t' &&
      (match i, i' with
      | none, none => true
      | some e, some e' => e.same e'
      | _, _ => false) && sameRefs l l'
  | _, _ => false

end

end StackLang
