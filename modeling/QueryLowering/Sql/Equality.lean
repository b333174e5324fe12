import QueryLowering.Sql.Basic

/-!
# Equality of SQL trees

Two trees are equal if they agree in every part. Floats are compared as numbers, so a tree that holds
a float that is no number does not equal itself.
-/

namespace QueryLowering

namespace Sql

mutual

/-- Whether two nodes are equal. -/
def Node.beq : Node → (Node → Bool)
  | .placeholder => fun | .placeholder => true | _ => false
  | .table a => fun | .table b => a == b | _ => false
  | .select a => fun | .select b => a.beq b | _ => false
  | .derived a => fun | .derived b => a.beq b | _ => false
  | .union a => fun | .union b => beqItems a b | _ => false
  | .source a => fun | .source b => a == b | _ => false
  | .column a n => fun | .column b m => a == b && n == m | _ => false
  | .composite a => fun | .composite b => beqEntries a b | _ => false
  | .grouping k e => fun | .grouping k' e' => k.beq k' && e.beq e' | _ => false
  | .rows a => fun | .rows b => a.beq b | _ => false
  | .literal a => fun | .literal b => a == b | _ => false
  | .parameter n v => fun | .parameter m w => n == m && v == w | _ => false
  | .list a => fun | .list b => beqNodes a b | _ => false
  | .binary o l r => fun | .binary o' l' r' => o == o' && l.beq l' && r.beq r' | _ => false
  | .unary o n => fun | .unary o' n' => o == o' && n.beq n' | _ => false
  | .isNull n b => fun | .isNull n' b' => n.beq n' && b == b' | _ => false
  | .choice t a b => fun | .choice t' a' b' => t.beq t' && a.beq a' && b.beq b' | _ => false
  | .function n as => fun | .function m bs => n == m && beqNodes as bs | _ => false
  | .aggregate f a => fun | .aggregate g b => f == g && beqOption a b | _ => false
  | .cast n t => fun | .cast n' t' => n.beq n' && t == t' | _ => false
  | .datePart p n => fun | .datePart p' n' => p == p' && n.beq n' | _ => false
  | .dateAdd p a n => fun | .dateAdd p' a' n' => p == p' && a.beq a' && n.beq n' | _ => false
  | .dateDiff p a b => fun | .dateDiff p' a' b' => p == p' && a.beq a' && b.beq b' | _ => false
  | .inValues n vs b => fun | .inValues n' vs' b' => n.beq n' && beqNodes vs vs' && b == b' | _ => false
  | .existence a => fun | .existence b => a.beq b | _ => false
  | .subquery a => fun | .subquery b => a.beq b | _ => false
  | .update a => fun | .update b => a.beq b | _ => false
  | .delete a => fun | .delete b => a.beq b | _ => false
termination_by structural a => a

/-- Whether two lists of nodes are equal. -/
def beqNodes : List Node → List Node → Bool
  | [], [] => true
  | a :: as, b :: bs => a.beq b && beqNodes as bs
  | _, _ => false
termination_by structural a _ => a

/-- Whether two optional nodes are equal. -/
def beqOption : Option Node → Option Node → Bool
  | none, none => true
  | some a, some b => a.beq b
  | _, _ => false
termination_by structural a _ => a

/-- Whether two lists of nodes at paths are equal. -/
def beqEntries : List (Path × Node) → List (Path × Node) → Bool
  | [], [] => true
  | (p, a) :: as, (q, b) :: bs => p == q && a.beq b && beqEntries as bs
  | _, _ => false
termination_by structural a _ => a

/-- Whether two lists of assignments are equal. -/
def beqAssignments : List (String × Node) → List (String × Node) → Bool
  | [], [] => true
  | (n, a) :: as, (m, b) :: bs => n == m && a.beq b && beqAssignments as bs
  | _, _ => false
termination_by structural a _ => a

/-- Whether two selects are equal. -/
def Select.beq : Select → Select → Bool
  | ⟨ss, p, f, g, ge, h, o, t, k, d, e, cs⟩, ⟨ss', p', f', g', ge', h', o', t', k', d', e', cs'⟩ =>
    beqSources ss ss' && beqOption p p' && beqOption f f' && beqOption g g' && beqOption ge ge'
      && beqOption h h' && beqOrder o o' && beqOption t t' && beqOption k k' && d == d' && e == e'
      && beqCtes cs cs'
termination_by structural a _ => a

/-- Whether two closed selects are equal. -/
def Derived.beq : Derived → Derived → Bool
  | ⟨i, s, cs⟩, ⟨i', s', cs'⟩ => i == i' && s.beq s' && beqColumns cs cs'
termination_by structural a _ => a

/-- Whether two lists of output columns are equal. -/
def beqColumns : List OutputColumn → List OutputColumn → Bool
  | [], [] => true
  | ⟨p, n, a⟩ :: as, ⟨q, m, b⟩ :: bs => p == q && n == m && a.beq b && beqColumns as bs
  | _, _ => false
termination_by structural a _ => a

/-- Whether the queries of two unions are equal. -/
def beqItems : List UnionItem → List UnionItem → Bool
  | [], [] => true
  | ⟨a, k⟩ :: as, ⟨b, l⟩ :: bs => a.beq b && k == l && beqItems as bs
  | _, _ => false
termination_by structural a _ => a

/-- Whether two lists of common table expressions are equal. -/
def beqCtes : List Cte → List Cte → Bool
  | [], [] => true
  | ⟨n, a, r⟩ :: as, ⟨m, b, s⟩ :: bs => n == m && a.beq b && beqRecursive r s && beqCtes as bs
  | _, _ => false
termination_by structural a _ => a

/-- Whether two optional closed selects are equal. -/
def beqRecursive : Option Derived → Option Derived → Bool
  | none, none => true
  | some a, some b => a.beq b
  | _, _ => false
termination_by structural a _ => a

/-- Whether two relations are equal. -/
def Relation.beq : Relation → Relation → Bool
  | .table a, .table b => a == b
  | .derived a, .derived b => a.beq b
  | .union a, .union b => beqItems a b
  | .cte a cs, .cte b ds => a == b && cs == ds
  | _, _ => false
termination_by structural a _ => a

/-- Whether two lists of data sources are equal. -/
def beqSources : List DataSource → List DataSource → Bool
  | [], [] => true
  | ⟨a, r, j, n⟩ :: as, ⟨b, s, k, m⟩ :: bs =>
    a == b && r.beq s && beqJoin j k && n == m && beqSources as bs
  | _, _ => false
termination_by structural a _ => a

/-- Whether two optional joins are equal. -/
def beqJoin : Option Join → Option Join → Bool
  | none, none => true
  | some ⟨k, c⟩, some ⟨k', c'⟩ => k == k' && beqOption c c'
  | _, _ => false
termination_by structural a _ => a

/-- Whether two orderings are equal. -/
def beqOrder : List OrderItem → List OrderItem → Bool
  | [], [] => true
  | ⟨a, d⟩ :: as, ⟨b, e⟩ :: bs => a.beq b && d == e && beqOrder as bs
  | _, _ => false
termination_by structural a _ => a

/-- Whether two updates are equal. -/
def Update.beq : Update → Update → Bool
  | ⟨t, s, as⟩, ⟨t', s', as'⟩ => t == t' && s.beq s' && beqAssignments as as'
termination_by structural a _ => a

/-- Whether two deletions are equal. -/
def Delete.beq : Delete → Delete → Bool
  | ⟨t, s⟩, ⟨t', s'⟩ => t == t' && s.beq s'
termination_by structural a _ => a

end

instance : BEq Node := ⟨Node.beq⟩

end Sql

end QueryLowering
