import ObjectAbi.Tree.Expr

/-!
# Equality of trees

Two trees are equal when they are built alike and carry equal types and equal literals. Literals are
compared as numbers, so a tree with a literal that is not a number differs from itself.
-/

namespace ObjectAbi.Tree

mutual

def Expr.equal : Expr → Expr → Bool
  | .mk a t, .mk b u => a.equal b && t = u

def Node.equal : Node → Node → Bool
  | .literal a, .literal b => a.equal b
  | .localVariable v, .localVariable w => v = w
  | .field r f, .field s g => r.equal s && f = g
  | .staticField f, .staticField g => f = g
  | .arrayElement a i, .arrayElement b j => a.equal b && i.equal j
  | .arrayLength a, .arrayLength b => a.equal b
  | .binary o l r, .binary p m s => o = p && l.equal m && r.equal s
  | .unary o e, .unary p d => o = p && e.equal d
  | .step o l, .step p m => o = p && l.equal m
  | .assign l v, .assign m w => l.equal m && v.equal w
  | .cast v, .cast w => v.equal w
  | .conditional c x y, .conditional d u v => c.equal d && x.equal u && y.equal v
  | .receiver k q, .receiver l r => k = l && q = r
  | .new m as, .new n bs => m = n && equalArgs as bs
  | .newArray n, .newArray m => n.equal m
  | .call m none as, .call n none bs => m = n && equalArgs as bs
  | .call m (some r) as, .call n (some s) bs => m = n && r.equal s && equalArgs as bs
  | _, _ => false

def Place.equal : Place → Place → Bool
  | .localVariable v, .localVariable w => v = w
  | .field r f, .field s g => r.equal s && f = g
  | .staticField f, .staticField g => f = g
  | .arrayElement a i, .arrayElement b j => a.equal b && i.equal j
  | _, _ => false

def equalArgs : List Expr → List Expr → Bool
  | [], [] => true
  | a :: as, b :: bs => a.equal b && equalArgs as bs
  | _, _ => false

end

def equalInit : Option Expr → Option Expr → Bool
  | none, none => true
  | some a, some b => a.equal b
  | _, _ => false

mutual

def Stmt.equal : Stmt → Stmt → Bool
  | .declareLocal v n t i, .declareLocal w m u j => v = w && n = m && t = u && equalInit i j
  | .return a, .return b => equalInit a b
  | .branch c x none, .branch d u none => c.equal d && x.equal u
  | .branch c x (some y), .branch d u (some v) => c.equal d && x.equal u && y.equal v
  | .loop c x, .loop d u => c.equal d && x.equal u
  | .expr a, .expr b => a.equal b
  | .block xs, .block ys => equalStmts xs ys
  | _, _ => false

def equalStmts : List Stmt → List Stmt → Bool
  | [], [] => true
  | x :: xs, y :: ys => x.equal y && equalStmts xs ys
  | _, _ => false

end

end ObjectAbi.Tree
