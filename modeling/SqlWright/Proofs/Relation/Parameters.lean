import SqlWright.Relation.Basic

/-!
# Parameters of relations

The parameters that a relation speaks of, one for each place at which it does, in the order in
which the places are read.
-/

namespace SqlWright

mutual

/-- Parameters of an expression, place by place. -/
def Scalar.parameters : Scalar → List Parameter
  | .parameter p => [p]
  | .binary _ left right => left.parameters ++ right.parameters
  | .unary _ operand => operand.parameters
  | .function _ args => Scalar.allParameters args
  | .inList _ columns => Scalar.allParameters columns
  | .column _ | .constant _ | .null | .placeholder _ | .typeIs _ _ => []

/-- Parameters of expressions one after the other. -/
def Scalar.allParameters : List Scalar → List Parameter
  | [] => []
  | e :: rest => e.parameters ++ Scalar.allParameters rest

end

/-- Parameters of a relation, place by place and those of its sources first. -/
def Relation.parameters : Relation → List Parameter
  | .table _ | .native _ _ => []
  | .filter r e | .take r e | .skip r e => r.parameters ++ e.parameters
  | .extend r columns => r.parameters ++ columns.flatMap (·.expr.parameters)
  | .join a b _ _ => a.parameters ++ b.parameters
  | .page r leaving taking => r.parameters ++ leaving.parameters ++ taking.parameters
  | .project r _ | .aggregate r _ _ | .sort r _ | .distinct r | .lock r _ => r.parameters

end SqlWright
