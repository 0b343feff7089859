import Varve.Engine.Catalog

/-!
# The scan planner

`plan.rs`: what a single-table query proves about the rows it can use.
-/

namespace Varve.Query

open Engine (i64Min i64Max u64Max digitsValue)

-- Syntax

inductive Value where
  | number (text : Text) (long : Bool)
  | singleQuotedString (text : Text)
  | other (node : Nat)
deriving DecidableEq, Repr

inductive UnaryOperator where
  | plus
  | minus
  | other (node : Nat)
deriving DecidableEq, Repr

inductive BinaryOperator where
  | and
  | eq
  | gt
  | gtEq
  | lt
  | ltEq
  | other (node : Nat)
deriving DecidableEq, Repr

inductive Expr where
  | identifier (name : Text)
  | compoundIdentifier (parts : List Text)
  | value (value : Value)
  | nested (expr : Expr)
  | unaryOp (op : UnaryOperator) (expr : Expr)
  | binaryOp (left : Expr) (op : BinaryOperator) (right : Expr)
  | between (expr : Expr) (negated : Bool) (low high : Expr)
  | other (node queries : Nat) (collates : Bool)
deriving DecidableEq, Repr

structure Alias where
  name : Text
  columns : List Text
deriving DecidableEq, Repr

structure TableClauses where
  withHints : Bool
  version : Bool
  withOrdinality : Bool
  partitions : Bool
  jsonPath : Bool
  sample : Bool
  indexHints : Bool
deriving DecidableEq, Repr

structure TableArgs where
  args : Bool
  settings : Bool
deriving DecidableEq, Repr

structure QueryClauses where
  cte : Bool
  locks : Bool
  forClause : Bool
  settings : Bool
  formatClause : Bool
  pipeOperators : Bool
deriving DecidableEq, Repr

structure SelectClauses where
  optimizerHint : Bool
  selectModifiers : Bool
  top : Bool
  topBeforeDistinct : Bool
  exclude : Bool
  into : Bool
  lateralViews : Bool
  prewhere : Bool
  connectBy : Bool
  clusterBy : Bool
  distributeBy : Bool
  sortBy : Bool
  valueTableMode : Bool
  nonStandardFlavor : Bool
deriving DecidableEq, Repr

mutual

/-- In each node `exprs` are the expressions outside of the parts its other fields name. -/
inductive SqlQuery : Type where
  | mk (clauses : QueryClauses) (body : SetExpr) (exprs : List Expr)

inductive SetExpr : Type where
  | select (clauses : SelectClauses) (sources : List TableWithJoins) (selection : Option Expr)
      (exprs : List Expr)
  | other (queries : Nat) (collates : Bool)

inductive TableWithJoins : Type where
  | mk (relation : TableFactor) (joins : List TableFactor)

inductive TableFactor : Type where
  | table (name : List Text) (aliased : Option Alias) (args : Option TableArgs)
      (clauses : TableClauses)
  | derived (lateral : Bool) (subquery : SqlQuery) (aliased : Option Alias) (sample : Bool)
  | other (queries : Nat) (collates : Bool)

end

inductive Statement where
  | query (query : SqlQuery)
  | other

def Expr.queries : Expr → Nat
  | .nested e | .unaryOp _ e => e.queries
  | .binaryOp l _ r => l.queries + r.queries
  | .between e _ low high => e.queries + low.queries + high.queries
  | .other _ queries _ => queries
  | _ => 0

def Expr.collates : Expr → Bool
  | .nested e | .unaryOp _ e => e.collates
  | .binaryOp l _ r => l.collates || r.collates
  | .between e _ low high => e.collates || low.collates || high.collates
  | .other _ _ collates => collates
  | _ => false

mutual

/-- `QueryCounter`. -/
def SqlQuery.queries : SqlQuery → Nat
  | .mk _ body exprs => 1 + body.queries + (exprs.map Expr.queries).sum

def SetExpr.queries : SetExpr → Nat
  | .select _ sources selection exprs =>
    sourceQueries sources + selection.elim 0 Expr.queries + (exprs.map Expr.queries).sum
  | .other queries _ => queries

def sourceQueries : List TableWithJoins → Nat
  | [] => 0
  | s :: sources => s.queries + sourceQueries sources

def TableWithJoins.queries : TableWithJoins → Nat
  | .mk relation joins => relation.queries + joinQueries joins

def joinQueries : List TableFactor → Nat
  | [] => 0
  | j :: joins => j.queries + joinQueries joins

def TableFactor.queries : TableFactor → Nat
  | .table .. => 0
  | .derived _ subquery _ _ => subquery.queries
  | .other queries _ => queries

end

mutual

/-- `NestedChainValidator` breaks. -/
def SqlQuery.collates : SqlQuery → Bool
  | .mk _ body exprs => body.collates || exprs.any Expr.collates

def SetExpr.collates : SetExpr → Bool
  | .select _ sources selection exprs =>
    sourceCollates sources || selection.any Expr.collates || exprs.any Expr.collates
  | .other _ collates => collates

def sourceCollates : List TableWithJoins → Bool
  | [] => false
  | s :: sources => s.collates || sourceCollates sources

def TableWithJoins.collates : TableWithJoins → Bool
  | .mk relation joins => relation.collates || joinCollates joins

def joinCollates : List TableFactor → Bool
  | [] => false
  | j :: joins => j.collates || joinCollates joins

def TableFactor.collates : TableFactor → Bool
  | .table .. => false
  | .derived _ subquery _ _ => subquery.collates
  | .other _ collates => collates

end

-- Supported queries and their source

def eqIgnoreAsciiCase (a b : Text) : Bool := a.map Char.toLower == b.map Char.toLower

def isSupportedQuery (c : QueryClauses) : Bool :=
  !c.cte && !c.locks && !c.forClause && !c.settings && !c.formatClause && !c.pipeOperators

def isSupportedSelect (c : SelectClauses) : Bool :=
  !c.optimizerHint && !c.selectModifiers && !c.top && !c.topBeforeDistinct && !c.exclude &&
    !c.into && !c.lateralViews && !c.prewhere && !c.connectBy && !c.clusterBy &&
    !c.distributeBy && !c.sortBy && !c.valueTableMode && !c.nonStandardFlavor

def TableClauses.any (c : TableClauses) : Bool :=
  c.withHints || c.version || c.withOrdinality || c.partitions || c.jsonPath || c.sample ||
    c.indexHints

def renamesColumns (aliased : Option Alias) : Bool := aliased.any fun a => a.columns != []

structure CatalogRelation where
  name : Text

structure CatalogAggregate where
  name : Text
  source : Text
  widthUs : Int

structure QueryCatalog where
  relations : List CatalogRelation
  aggregates : List CatalogAggregate

def knownCatalogMacro (catalog : QueryCatalog) : TableFactor → Bool
  | .table [name] aliased (some args) clauses =>
    !args.args && !args.settings && !clauses.any && !renamesColumns aliased &&
      catalog.relations.any fun relation => eqIgnoreAsciiCase name relation.name
  | _ => false

def metadataOnlySelect (catalog : QueryCatalog) (sources : List TableWithJoins) : Bool :=
  !sources.isEmpty && sources.all fun
    | .mk relation joins => knownCatalogMacro catalog relation &&
        joins.all (knownCatalogMacro catalog)

def plainTable : TableFactor → Option (Text × Option Text)
  | .table [name] aliased none clauses =>
    if clauses.any || renamesColumns aliased then none else some (name, aliased.map Alias.name)
  | _ => none

structure BaseSource where
  relation : Text
  aliased : Option Text
  selection : Option Expr
  queryCount : Nat

def BaseSource.qualifier (s : BaseSource) : Text := s.aliased.getD s.relation

mutual

def baseSource : SqlQuery → Option BaseSource
  | .mk clauses body _ => if isSupportedQuery clauses then selectSource body else none

def selectSource : SetExpr → Option BaseSource
  | .select clauses [.mk relation []] selection _ =>
    if isSupportedSelect clauses then factorSource selection relation else none
  | _ => none

def factorSource (selection : Option Expr) : TableFactor → Option BaseSource
  | .derived lateral subquery aliased sample =>
    if lateral || sample || renamesColumns aliased then none
    else (baseSource subquery).map fun s => { s with queryCount := s.queryCount + 1 }
  | factor => (plainTable factor).map fun (relation, aliased) => ⟨relation, aliased, selection, 1⟩

end

def stripRollupSuffix (name : Text) : Option Text :=
  let suffix := "__rollup".toList
  if suffix.length ≤ name.length ∧
      eqIgnoreAsciiCase (name.drop (name.length - suffix.length)) suffix then
    some (name.take (name.length - suffix.length))
  else none

structure Resolved where
  table : Text
  rollup : Bool
  rollupWidthUs : Option Int

def tableCandidates (relation table : Text) : List Resolved :=
  (if eqIgnoreAsciiCase relation table then [⟨table, false, none⟩] else []) ++
    if (stripRollupSuffix relation).any (eqIgnoreAsciiCase · table) then
      [⟨table, true, none⟩] else []

def aggregateCandidates (relation : Text) (tableNames : List Text) (a : CatalogAggregate) :
    List Resolved :=
  if eqIgnoreAsciiCase relation a.name then
    (tableNames.filter (eqIgnoreAsciiCase · a.source)).map fun t => ⟨t, true, some a.widthUs⟩
  else []

def resolveTable (relation : Text) (tableNames : List Text) (catalog : QueryCatalog) :
    Option Resolved :=
  match tableNames.flatMap (tableCandidates relation) ++
      catalog.aggregates.flatMap (aggregateCandidates relation tableNames) with
  | [candidate] => some candidate
  | _ => none

def isColumn (qualifier name : Text) : Expr → Bool
  | .nested inner => isColumn qualifier name inner
  | .identifier column => eqIgnoreAsciiCase column name
  | .compoundIdentifier [table, column] =>
    eqIgnoreAsciiCase table qualifier && eqIgnoreAsciiCase column name
  | _ => false

def isTimestamp (qualifier : Text) (e : Expr) : Bool := isColumn qualifier "timestamp_us".toList e

def isDigits (text : Text) : Bool := text != [] && text.all Char.isDigit

def positiveInteger : Value → Option Int
  | .number text long =>
    if !long ∧ isDigits text ∧ (digitsValue text : Int) ≤ i64Max then some (digitsValue text)
    else none
  | _ => none

def unsignedInteger : Expr → Option Nat
  | .nested inner => unsignedInteger inner
  | .value (.number text long) =>
    if !long ∧ isDigits text ∧ digitsValue text ≤ u64Max then some (digitsValue text) else none
  | _ => none

def integerConstant : Expr → Option Int
  | .nested inner => integerConstant inner
  | .value value => positiveInteger value
  | .unaryOp .plus e => integerConstant e
  | .unaryOp .minus e => do
    let magnitude ← unsignedInteger e
    if (magnitude : Int) = i64Max + 1 then some i64Min
    else if (magnitude : Int) ≤ i64Max then some (-magnitude) else none
  | _ => none

def stringConstant : Expr → Option Text
  | .nested inner => stringConstant inner
  | .value (.singleQuotedString text) => some text
  | _ => none

structure Bounds where
  start : Option Int
  end_ : Option Int
  empty : Bool
deriving DecidableEq, Repr

namespace Bounds

def default : Bounds := ⟨none, none, false⟩

def nothing : Bounds := ⟨none, none, true⟩

def startingAt (start : Int) : Bounds := ⟨some start, none, false⟩

def endingBefore (end_ : Int) : Bounds :=
  if end_ = i64Min then nothing else ⟨none, some end_, false⟩

def meet (pick : Int → Int → Int) : Option Int → Option Int → Option Int
  | some left, some right => some (pick left right)
  | left, right => left.or right

def intersection (a b : Bounds) : Bounds :=
  if a.empty || b.empty then nothing
  else
    let start := meet max a.start b.start
    let end_ := meet min a.end_ b.end_
    if (start.any fun s => end_.any fun e => e ≤ s) then nothing else ⟨start, end_, false⟩

end Bounds

def checkedSucc (value : Int) : Option Int := if value + 1 ≤ i64Max then some (value + 1) else none

def comparisonForValue (op : BinaryOperator) (value : Int) : Bounds :=
  match op with
  | .gt => ((checkedSucc value).map Bounds.startingAt).getD .nothing
  | .gtEq => .startingAt value
  | .lt => .endingBefore value
  | .ltEq => ((checkedSucc value).map Bounds.endingBefore).getD .default
  | .eq =>
    let lower := Bounds.startingAt value
    ((checkedSucc value).map fun v => lower.intersection (.endingBefore v)).getD lower
  | _ => .default

def reversedComparisonForValue (op : BinaryOperator) (value : Int) : Bounds :=
  match op with
  | .gt => comparisonForValue .lt value
  | .gtEq => comparisonForValue .ltEq value
  | .lt => comparisonForValue .gt value
  | .ltEq => comparisonForValue .gtEq value
  | .eq => comparisonForValue .eq value
  | _ => .default

def comparisonBounds (qualifier : Text) (left : Expr) (op : BinaryOperator)
    (right : Expr) : Bounds :=
  match isTimestamp qualifier left, integerConstant right with
  | true, some value => comparisonForValue op value
  | _, _ =>
    match isTimestamp qualifier right, integerConstant left with
    | true, some value => reversedComparisonForValue op value
    | _, _ => .default

def extractBounds (qualifier : Text) : Expr → Bounds
  | .nested inner => extractBounds qualifier inner
  | .binaryOp left .and right =>
    (extractBounds qualifier left).intersection (extractBounds qualifier right)
  | .binaryOp left op right => comparisonBounds qualifier left op right
  | .between e false low high =>
    if isTimestamp qualifier e then
      match integerConstant low, integerConstant high with
      | some low, some high =>
        (comparisonForValue .gtEq low).intersection (comparisonForValue .ltEq high)
      | _, _ => .default
    else .default
  | _ => .default

structure SeriesFilter where
  tenant : Option Text
  series : Option Text
  empty : Bool
deriving DecidableEq, Repr

namespace SeriesFilter

def default : SeriesFilter := ⟨none, none, false⟩

def conflict (a b : Option Text) : Bool := a.any fun left => b.any fun right => left != right

def intersection (a b : SeriesFilter) : SeriesFilter where
  tenant := a.tenant.or b.tenant
  series := a.series.or b.series
  empty := a.empty || b.empty || (conflict a.tenant b.tenant || conflict a.series b.series)

end SeriesFilter

/-- One turn of the loop over the two orders of an equation. -/
def equationSeries (qualifier : Text) (column value : Expr) : Option SeriesFilter := do
  let text ← stringConstant value
  if isColumn qualifier "tenant".toList column then some ⟨some text, none, false⟩
  else if isColumn qualifier "series".toList column then some ⟨none, some text, false⟩
  else none

def extractSeries (qualifier : Text) : Expr → SeriesFilter
  | .nested inner => extractSeries qualifier inner
  | .binaryOp left .and right =>
    (extractSeries qualifier left).intersection (extractSeries qualifier right)
  | .binaryOp left .eq right =>
    ((equationSeries qualifier left right).or (equationSeries qualifier right left)).getD .default
  | _ => .default

structure ScanPlan where
  table : Text
  rollup : Bool
  rollupWidthUs : Option Int
  tenant : Option Text
  series : Option Text
  startUs : Option Int
  endUs : Option Int
  empty : Bool
deriving DecidableEq, Repr

def storageFreePlan : ScanPlan := ⟨[], false, none, none, none, none, none, true⟩

def ScanPlan.matchesSeries (p : ScanPlan) (tenant series : Text) : Bool :=
  !p.empty && p.tenant.all (tenant == ·) && p.series.all (series == ·)

def sourcePlan (source : BaseSource) (resolved : Resolved) : ScanPlan :=
  let bounds := if resolved.rollup then .default
    else source.selection.elim .default (extractBounds source.qualifier)
  let series := source.selection.elim .default (extractSeries source.qualifier)
  { table := resolved.table
    rollup := resolved.rollup
    rollupWidthUs := resolved.rollupWidthUs
    tenant := series.tenant
    series := series.series
    startUs := bounds.start
    endUs := bounds.end_
    empty := bounds.empty || series.empty }

def planQuery (query : SqlQuery) (tableNames : List Text) (catalog : QueryCatalog) :
    Option ScanPlan :=
  match query with
  | .mk clauses (.select select sources _ _) _ =>
    if !isSupportedQuery clauses || !isSupportedSelect select then none
    else if sources.isEmpty || metadataOnlySelect catalog sources then
      if query.queries = 1 then some storageFreePlan else none
    else do
      let source ← baseSource query
      if source.queryCount ≠ query.queries then none
      else if 1 < source.queryCount ∧ query.collates then none
      else (resolveTable source.relation tableNames catalog).map (sourcePlan source)
  | _ => none

/-- From the statements the parser returned, if it did. -/
def planWithCatalog (statements : Option (List Statement)) (tableNames : List Text)
    (catalog : QueryCatalog) : Option ScanPlan :=
  match statements with
  | some [.query query] => planQuery query tableNames catalog
  | _ => none

end Varve.Query
