import Monkey.Tree.Basic

/-! Equality of trees is decided by comparing them node by node, tokens included. The
comparison holds exactly of equal trees, which gives `DecidableEq`. -/

namespace Monkey

mutual

/-- Compares two expressions node by node. -/
def Expr.same : Expr → Expr → Bool
  | .identifier a, .identifier b => a == b
  | .integer t v, .integer t' v' => t == t' && v == v'
  | .boolean t v, .boolean t' v' => t == t' && v == v'
  | .unary t op e, .unary t' op' e' => t == t' && op == op' && e.same e'
  | .binary t op l r, .binary t' op' l' r' => t == t' && op == op' && l.same l' && r.same r'
  | .ifElse t c b a, .ifElse t' c' b' a' => t == t' && c.same c' && b.same b' && Block.sameOption a a'
  | .function t ps b, .function t' ps' b' => t == t' && ps == ps' && b.same b'
  | .call t f as, .call t' f' as' => t == t' && f.same f' && Expr.sameAll as as'
  | _, _ => false
termination_by structural a => a

def Expr.sameAll : List Expr → List Expr → Bool
  | [], [] => true
  | a :: as, b :: bs => a.same b && Expr.sameAll as bs
  | _, _ => false
termination_by structural a => a

/-- Compares two blocks node by node. -/
def Block.same : Block → Block → Bool
  | ⟨t, ss⟩, ⟨t', ss'⟩ => t == t' && Statement.sameAll ss ss'
termination_by structural a => a

def Block.sameOption : Option Block → Option Block → Bool
  | none, none => true
  | some a, some b => a.same b
  | _, _ => false
termination_by structural a => a

/-- Compares two statements node by node. -/
def Statement.same : Statement → Statement → Bool
  | .letStmt t n v, .letStmt t' n' v' => t == t' && n == n' && v.same v'
  | .returnStmt t v, .returnStmt t' v' => t == t' && v.same v'
  | .exprStmt t e, .exprStmt t' e' => t == t' && e.same e'
  | _, _ => false
termination_by structural a => a

def Statement.sameAll : List Statement → List Statement → Bool
  | [], [] => true
  | s :: ss, u :: us => s.same u && Statement.sameAll ss us
  | _, _ => false
termination_by structural a => a

end

mutual

theorem Expr.same_self : ∀ e : Expr, e.same e = true
  | .identifier _ => by simp [Expr.same]
  | .integer _ _ => by simp [Expr.same]
  | .boolean _ _ => by simp [Expr.same]
  | .unary _ _ e => by simp [Expr.same, e.same_self]
  | .binary _ _ l r => by simp [Expr.same, l.same_self, r.same_self]
  | .ifElse _ c b a => by simp [Expr.same, c.same_self, b.same_self, Block.sameOption_self a]
  | .function _ _ b => by simp [Expr.same, b.same_self]
  | .call _ f as => by simp [Expr.same, f.same_self, Expr.sameAll_self as]

theorem Expr.sameAll_self : ∀ es : List Expr, Expr.sameAll es es = true
  | [] => rfl
  | e :: es => by simp [Expr.sameAll, e.same_self, Expr.sameAll_self es]

theorem Block.same_self : ∀ b : Block, b.same b = true
  | ⟨_, ss⟩ => by simp [Block.same, Statement.sameAll_self ss]

theorem Block.sameOption_self : ∀ b : Option Block, Block.sameOption b b = true
  | none => rfl
  | some b => by simp [Block.sameOption, b.same_self]

theorem Statement.same_self : ∀ s : Statement, s.same s = true
  | .letStmt _ _ v => by simp [Statement.same, v.same_self]
  | .returnStmt _ v => by simp [Statement.same, v.same_self]
  | .exprStmt _ e => by simp [Statement.same, e.same_self]

theorem Statement.sameAll_self : ∀ ss : List Statement, Statement.sameAll ss ss = true
  | [] => rfl
  | s :: ss => by simp [Statement.sameAll, s.same_self, Statement.sameAll_self ss]

end

mutual

theorem Expr.eq_of_same : ∀ {a b : Expr}, a.same b = true → a = b
  | .identifier _, b, h => by
    cases b <;> simp_all [Expr.same]
  | .integer _ _, b, h => by
    cases b <;> simp_all [Expr.same]
  | .boolean _ _, b, h => by
    cases b <;> simp_all [Expr.same]
  | .unary _ _ e, b, h => by
    cases b <;> simp [Expr.same] at h
    simp [h, Expr.eq_of_same h.2]
  | .binary _ _ l r, b, h => by
    cases b <;> simp [Expr.same] at h
    simp [h, Expr.eq_of_same h.1.2, Expr.eq_of_same h.2]
  | .ifElse _ c t e, b, h => by
    cases b <;> simp [Expr.same] at h
    simp [h, Expr.eq_of_same h.1.1.2, Block.eq_of_same h.1.2, Block.eq_of_sameOption h.2]
  | .function _ _ t, b, h => by
    cases b <;> simp [Expr.same] at h
    simp [h, Block.eq_of_same h.2]
  | .call _ f as, b, h => by
    cases b <;> simp [Expr.same] at h
    simp [h, Expr.eq_of_same h.1.2, Expr.eq_of_sameAll h.2]

theorem Expr.eq_of_sameAll : ∀ {as bs : List Expr}, Expr.sameAll as bs = true → as = bs
  | [], bs, h => by cases bs <;> simp_all [Expr.sameAll]
  | a :: as, bs, h => by
    cases bs <;> simp [Expr.sameAll] at h
    simp [Expr.eq_of_same h.1, Expr.eq_of_sameAll h.2]

theorem Block.eq_of_same : ∀ {a b : Block}, a.same b = true → a = b
  | ⟨_, ss⟩, ⟨_, us⟩, h => by
    simp [Block.same] at h
    simp [h, Statement.eq_of_sameAll h.2]

theorem Block.eq_of_sameOption : ∀ {a b : Option Block}, Block.sameOption a b = true → a = b
  | none, b, h => by cases b <;> simp_all [Block.sameOption]
  | some a, b, h => by
    cases b <;> simp [Block.sameOption] at h
    simp [Block.eq_of_same h]

theorem Statement.eq_of_same : ∀ {a b : Statement}, a.same b = true → a = b
  | .letStmt _ _ v, b, h => by
    cases b <;> simp [Statement.same] at h
    simp [h, Expr.eq_of_same h.2]
  | .returnStmt _ v, b, h => by
    cases b <;> simp [Statement.same] at h
    simp [h, Expr.eq_of_same h.2]
  | .exprStmt _ e, b, h => by
    cases b <;> simp [Statement.same] at h
    simp [h, Expr.eq_of_same h.2]

theorem Statement.eq_of_sameAll : ∀ {as bs : List Statement}, Statement.sameAll as bs = true → as = bs
  | [], bs, h => by cases bs <;> simp_all [Statement.sameAll]
  | a :: as, bs, h => by
    cases bs <;> simp [Statement.sameAll] at h
    simp [Statement.eq_of_same h.1, Statement.eq_of_sameAll h.2]

end

theorem Expr.same_iff {a b : Expr} : a.same b = true ↔ a = b :=
  ⟨Expr.eq_of_same, fun h => h ▸ a.same_self⟩

theorem Block.same_iff {a b : Block} : a.same b = true ↔ a = b :=
  ⟨Block.eq_of_same, fun h => h ▸ a.same_self⟩

theorem Statement.same_iff {a b : Statement} : a.same b = true ↔ a = b :=
  ⟨Statement.eq_of_same, fun h => h ▸ a.same_self⟩

instance : DecidableEq Expr := fun _ _ => decidable_of_iff _ Expr.same_iff

instance : DecidableEq Block := fun _ _ => decidable_of_iff _ Block.same_iff

instance : DecidableEq Statement := fun _ _ => decidable_of_iff _ Statement.same_iff

deriving instance DecidableEq for Program

end Monkey
