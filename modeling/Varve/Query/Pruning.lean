import Varve.Engine.Partition
import Varve.Query.Plan

/-!
# Pruning is sound

Expressions are given their SQL meaning: comparisons of integers and equality of texts, conjunction
in three-valued logic, and any meaning at all for what the planner does not recognise.
-/

namespace Varve.Query

open Engine (i64Min i64Max digitsValue shardFor StoredRow Segment Table)

-- The meaning of expressions

inductive Val where
  | null
  | bool (b : Bool)
  | int (i : Int)
  | text (t : Text)
  | other (node : Nat)
deriving DecidableEq, Repr

structure SourceRow where
  timestampUs : Int
  tenant : Text
  series : Text

/-- A meaning of everything the planner does not recognise. -/
structure Meaning where
  identifier : List Text → Val
  literal : Value → Val
  unary : UnaryOperator → Val → Val
  binary : BinaryOperator → Val → Val → Val
  notBetween : Val → Val → Val → Val
  node : Nat → Val
  cast : Val → Option Bool

variable (m : Meaning)

def truth : Val → Option Bool
  | .null => none
  | .bool b => some b
  | v => m.cast v

def and3 (a b : Val) : Val :=
  match truth m a, truth m b with
  | some false, _ => .bool false
  | _, some false => .bool false
  | some true, some true => .bool true
  | _, _ => .null

def compareInt : BinaryOperator → Int → Int → Option Bool
  | .eq, a, b => some (a = b)
  | .gt, a, b => some (b < a)
  | .gtEq, a, b => some (b ≤ a)
  | .lt, a, b => some (a < b)
  | .ltEq, a, b => some (a ≤ b)
  | _, _, _ => none

def binary (op : BinaryOperator) (a b : Val) : Val :=
  match op, a, b with
  | .and, a, b => and3 m a b
  | op, .int a, .int b => ((compareInt op a b).map Val.bool).getD (m.binary op (.int a) (.int b))
  | .eq, .text a, .text b => .bool (a = b)
  | op, a, b => m.binary op a b

def column (row : SourceRow) (name : Text) : Option Val :=
  if eqIgnoreAsciiCase name "timestamp_us".toList then some (.int row.timestampUs)
  else if eqIgnoreAsciiCase name "tenant".toList then some (.text row.tenant)
  else if eqIgnoreAsciiCase name "series".toList then some (.text row.series)
  else none

def literal : Value → Val
  | .number text false => if isDigits text then .int (digitsValue text)
    else m.literal (.number text false)
  | .singleQuotedString text => .text text
  | v => m.literal v

def unary : UnaryOperator → Val → Val
  | .plus, .int i => .int i
  | .minus, .int i => .int (-i)
  | op, v => m.unary op v

def eval (row : SourceRow) (qualifier : Text) : Expr → Val
  | .identifier name => (column row name).getD (m.identifier [name])
  | .compoundIdentifier [table, name] =>
    if eqIgnoreAsciiCase table qualifier then (column row name).getD (m.identifier [table, name])
    else m.identifier [table, name]
  | .compoundIdentifier parts => m.identifier parts
  | .value v => literal m v
  | .nested e => eval row qualifier e
  | .unaryOp op e => unary m op (eval row qualifier e)
  | .binaryOp l op r => binary m op (eval row qualifier l) (eval row qualifier r)
  | .between e false low high =>
    and3 m (binary m .gtEq (eval row qualifier e) (eval row qualifier low))
      (binary m .ltEq (eval row qualifier e) (eval row qualifier high))
  | .between e true low high =>
    m.notBetween (eval row qualifier e) (eval row qualifier low) (eval row qualifier high)
  | .other node _ _ => m.node node

/-- The `WHERE` of a source is true of a row. -/
def Holds (row : SourceRow) (source : BaseSource) : Prop :=
  ∀ e ∈ source.selection, truth m (eval m row source.qualifier e) = some true

-- Columns and constants

section
variable {m} {row : SourceRow} {qualifier : Text} {e : Expr}

theorem eval_isColumn {name : Text} {v : Val} (h : isColumn qualifier name e = true)
    (hv : ∀ n, eqIgnoreAsciiCase n name = true → column row n = some v) :
    eval m row qualifier e = v := by
  induction e with
  | identifier n =>
    simp only [isColumn] at h
    simp [eval, hv n h]
  | compoundIdentifier parts =>
    match parts, h with
    | [table, n], h =>
      simp only [isColumn, Bool.and_eq_true] at h
      simp [eval, h.1, hv n h.2]
  | nested e ih => exact ih h
  | _ => cases h

theorem eval_isTimestamp (h : isTimestamp qualifier e = true) :
    eval m row qualifier e = .int row.timestampUs :=
  eval_isColumn h fun n hn => by rw [column, if_pos hn]

theorem eqIgnoreAsciiCase_ne {n a b : Text} (h : eqIgnoreAsciiCase n a = true)
    (hab : eqIgnoreAsciiCase a b = false) : eqIgnoreAsciiCase n b = false := by
  simp only [eqIgnoreAsciiCase, beq_iff_eq, beq_eq_false_iff_ne] at *
  rwa [h]

theorem eval_isTenant (h : isColumn qualifier "tenant".toList e = true) :
    eval m row qualifier e = .text row.tenant :=
  eval_isColumn h fun n hn => by
    have ht := eqIgnoreAsciiCase_ne hn (b := "timestamp_us".toList) (by decide)
    rw [column, if_neg (ne_true_of_eq_false ht), if_pos hn]

theorem eval_isSeries (h : isColumn qualifier "series".toList e = true) :
    eval m row qualifier e = .text row.series :=
  eval_isColumn h fun n hn => by
    have ht := eqIgnoreAsciiCase_ne hn (b := "timestamp_us".toList) (by decide)
    have hs := eqIgnoreAsciiCase_ne hn (b := "tenant".toList) (by decide)
    rw [column, if_neg (ne_true_of_eq_false ht), if_neg (ne_true_of_eq_false hs), if_pos hn]

theorem eval_positiveInteger {v : Value} {i : Int} (h : positiveInteger v = some i) :
    literal m v = .int i ∧ i ≤ i64Max := by
  cases v with
  | number text long =>
    simp only [positiveInteger, Option.ite_none_right_eq_some, Option.some.injEq] at h
    obtain ⟨⟨hl, hd, hle⟩, rfl⟩ := h
    obtain rfl : long = false := by simpa using hl
    exact ⟨by simp [literal, hd], hle⟩
  | _ => cases h

theorem eval_unsignedInteger {n : Nat} (h : unsignedInteger e = some n) :
    eval m row qualifier e = .int n := by
  induction e with
  | nested e ih => exact ih h
  | value v =>
    cases v with
    | number text long =>
      simp only [unsignedInteger, Option.ite_none_right_eq_some, Option.some.injEq] at h
      obtain ⟨⟨hl, hd, -⟩, rfl⟩ := h
      obtain rfl : long = false := by simpa using hl
      simp [eval, literal, hd]
    | _ => cases h
  | _ => cases h

theorem eval_integerConstant {i : Int} (h : integerConstant e = some i) :
    eval m row qualifier e = .int i := by
  induction e with
  | nested e ih => exact ih h
  | value v => exact (eval_positiveInteger h).1
  | unaryOp op e ih =>
    cases op with
    | plus => simp [eval, ih h, unary]
    | minus =>
      simp only [integerConstant, Option.bind_eq_bind, Option.bind_eq_some_iff] at h
      obtain ⟨n, hn, h⟩ := h
      rw [eval, eval_unsignedInteger hn, unary]
      split_ifs at h with h1
      · cases h
        rw [h1]
        rfl
      · cases h
        rfl
    | other => cases h
  | _ => cases h

theorem eval_stringConstant {t : Text} (h : stringConstant e = some t) :
    eval m row qualifier e = .text t := by
  induction e with
  | nested e ih => exact ih h
  | value v =>
    cases v with
    | singleQuotedString text =>
      cases h
      rfl
    | _ => cases h
  | _ => cases h

theorem truth_and3 {a b : Val} (h : truth m (and3 m a b) = some true) :
    truth m a = some true ∧ truth m b = some true := by
  unfold and3 at h
  split at h <;> simp_all [truth]

end

-- Bounds

/-- The half-open range of a bound has the timestamp. -/
structure Bounds.Admits (b : Bounds) (t : Int) : Prop where
  nonempty : b.empty = false
  start : ∀ s ∈ b.start, s ≤ t
  end_ : ∀ e ∈ b.end_, t < e

namespace Bounds

theorem admits_default (t : Int) : default.Admits t := ⟨rfl, by simp [default], by simp [default]⟩

theorem admits_startingAt {s t : Int} (h : s ≤ t) : (startingAt s).Admits t :=
  ⟨rfl, by simpa [startingAt] using h, by simp [startingAt]⟩

theorem admits_endingBefore {e t : Int} (h : t < e) (ht : i64Min ≤ t) :
    (endingBefore e).Admits t := by
  unfold endingBefore
  rw [if_neg (by omega)]
  exact ⟨rfl, by simp, by simpa using h⟩

theorem mem_meet {pick : Int → Int → Int} {a b : Option Int} {x : Int} {P : Int → Prop}
    (hp : ∀ x y, P x → P y → P (pick x y)) (h : x ∈ meet pick a b) (ha : ∀ y ∈ a, P y)
    (hb : ∀ y ∈ b, P y) : P x := by
  cases a with
  | none =>
    cases b with
    | none => cases h
    | some b => exact hb x h
  | some a =>
    cases b with
    | none => exact ha x h
    | some b =>
      obtain rfl := Option.some.inj h
      exact hp a b (ha a rfl) (hb b rfl)

theorem Admits.intersection {a b : Bounds} {t : Int} (ha : a.Admits t) (hb : b.Admits t) :
    (a.intersection b).Admits t := by
  have hs : ∀ s ∈ meet max a.start b.start, s ≤ t := fun s h =>
    mem_meet (P := fun s => s ≤ t) (fun _ _ => max_le) h ha.start hb.start
  have he : ∀ e ∈ meet min a.end_ b.end_, t < e := fun e h =>
    mem_meet (P := fun e => t < e) (fun _ _ => lt_min) h ha.end_ hb.end_
  have hne : ((meet max a.start b.start).any fun s =>
      (meet min a.end_ b.end_).any fun e => e ≤ s) = false := by
    simp only [Bool.eq_false_iff, ne_eq, Option.any_eq_true, decide_eq_true_eq, not_exists, not_and,
      not_le]
    intro s hsm e hem
    exact (hs s hsm).trans_lt (he e hem)
  unfold Bounds.intersection
  rw [if_neg (by simp [ha.nonempty, hb.nonempty])]
  simp only [hne, Bool.false_eq_true, if_false]
  exact ⟨rfl, hs, he⟩

end Bounds

theorem admits_comparisonForValue (op : BinaryOperator) {t v : Int}
    (h : compareInt op t v ≠ some false) (hmin : i64Min ≤ t) (hmax : t ≤ i64Max) :
    (comparisonForValue op v).Admits t := by
  cases op with
  | gt =>
    have hlt : v < t := by simpa [compareInt] using h
    have hs : checkedSucc v = some (v + 1) := if_pos (by omega)
    simp only [comparisonForValue, hs]
    exact Bounds.admits_startingAt (by omega)
  | gtEq => exact Bounds.admits_startingAt (by simpa [compareInt] using h)
  | lt => exact Bounds.admits_endingBefore (by simpa [compareInt] using h) hmin
  | ltEq =>
    have hle : t ≤ v := by simpa [compareInt] using h
    unfold comparisonForValue checkedSucc
    dsimp only
    split_ifs
    · exact Bounds.admits_endingBefore (by omega) hmin
    · exact Bounds.admits_default t
  | eq =>
    have heq : t = v := by simpa [compareInt] using h
    unfold comparisonForValue checkedSucc
    dsimp only
    split_ifs
    · exact (Bounds.admits_startingAt heq.ge).intersection
        (Bounds.admits_endingBefore (by omega) hmin)
    · exact Bounds.admits_startingAt heq.ge
  | and => exact Bounds.admits_default t
  | other => exact Bounds.admits_default t

theorem admits_reversedComparisonForValue {op : BinaryOperator} {t v : Int}
    (h : compareInt op v t ≠ some false) (hmin : i64Min ≤ t) (hmax : t ≤ i64Max) :
    (reversedComparisonForValue op v).Admits t := by
  cases op with
  | gt => exact admits_comparisonForValue .lt (by simpa [compareInt] using h) hmin hmax
  | gtEq => exact admits_comparisonForValue .ltEq (by simpa [compareInt] using h) hmin hmax
  | lt => exact admits_comparisonForValue .gt (by simpa [compareInt] using h) hmin hmax
  | ltEq => exact admits_comparisonForValue .gtEq (by simpa [compareInt] using h) hmin hmax
  | eq =>
    exact admits_comparisonForValue .eq (by simpa [compareInt, eq_comm] using h) hmin hmax
  | and => exact Bounds.admits_default t
  | other => exact Bounds.admits_default t

section
variable {m} {row : SourceRow} {qualifier : Text}

theorem compareInt_of_truth {op : BinaryOperator} {a b : Int} (hop : op ≠ .and)
    (h : truth m (binary m op (.int a) (.int b)) = some true) : compareInt op a b ≠ some false := by
  intro hf
  cases op <;> simp_all [binary, truth]

theorem admits_comparisonBounds {left right : Expr} {op : BinaryOperator} (hop : op ≠ .and)
    (hmin : i64Min ≤ row.timestampUs) (hmax : row.timestampUs ≤ i64Max)
    (h : truth m (eval m row qualifier (.binaryOp left op right)) = some true) :
    (comparisonBounds qualifier left op right).Admits row.timestampUs := by
  rw [eval] at h
  unfold comparisonBounds
  split
  · rename_i value ht hv
    rw [eval_isTimestamp ht, eval_integerConstant hv] at h
    exact admits_comparisonForValue op (compareInt_of_truth hop h) hmin hmax
  · split
    · rename_i value ht hv
      rw [eval_isTimestamp ht, eval_integerConstant hv] at h
      exact admits_reversedComparisonForValue (compareInt_of_truth hop h) hmin hmax
    · exact Bounds.admits_default _

theorem admits_extractBounds {e : Expr} (hmin : i64Min ≤ row.timestampUs)
    (hmax : row.timestampUs ≤ i64Max) (h : truth m (eval m row qualifier e) = some true) :
    (extractBounds qualifier e).Admits row.timestampUs := by
  induction e with
  | nested e ih => exact ih h
  | binaryOp l op r ihl ihr =>
    by_cases hop : op = .and
    · subst hop
      obtain ⟨hl, hr⟩ := truth_and3 h
      exact (ihl hl).intersection (ihr hr)
    · have hb := admits_comparisonBounds hop hmin hmax h
      cases op with
      | and => exact absurd rfl hop
      | _ => exact hb
  | between e negated low high =>
    cases negated with
    | true => exact Bounds.admits_default _
    | false =>
      obtain ⟨hlow, hhigh⟩ := truth_and3 h
      simp only [extractBounds]
      split_ifs with ht
      · split
        · rename_i lo hi hlo hhi
          rw [eval_isTimestamp ht, eval_integerConstant hlo] at hlow
          rw [eval_isTimestamp ht, eval_integerConstant hhi] at hhigh
          exact (admits_comparisonForValue .gtEq (compareInt_of_truth (by simp) hlow) hmin
            hmax).intersection
            (admits_comparisonForValue .ltEq (compareInt_of_truth (by simp) hhigh) hmin hmax)
        · exact Bounds.admits_default _
      · exact Bounds.admits_default _
  | _ => exact Bounds.admits_default _

end

structure SeriesFilter.Admits (f : SeriesFilter) (row : SourceRow) : Prop where
  nonempty : f.empty = false
  tenant : ∀ t ∈ f.tenant, row.tenant = t
  series : ∀ t ∈ f.series, row.series = t

section
variable {m} {row : SourceRow} {qualifier : Text}

theorem SeriesFilter.admits_default : SeriesFilter.default.Admits row :=
  ⟨rfl, by simp [default], by simp [default]⟩

theorem SeriesFilter.conflict_eq {a b : Option Text} {t : Text} (ha : ∀ x ∈ a, t = x)
    (hb : ∀ x ∈ b, t = x) : conflict a b = false ∧ ∀ x ∈ a.or b, t = x := by
  cases a with
  | none => exact ⟨rfl, by simpa using hb⟩
  | some a =>
    obtain rfl := ha a rfl
    cases b with
    | none => exact ⟨rfl, by simp⟩
    | some b =>
      obtain rfl := hb b rfl
      exact ⟨by simp [conflict], by simp⟩

theorem SeriesFilter.Admits.intersection {a b : SeriesFilter} (ha : a.Admits row)
    (hb : b.Admits row) : (a.intersection b).Admits row := by
  obtain ⟨ht, htenant⟩ := conflict_eq ha.tenant hb.tenant
  obtain ⟨hs, hseries⟩ := conflict_eq ha.series hb.series
  exact ⟨by simp [SeriesFilter.intersection, ha.nonempty, hb.nonempty, ht, hs], htenant, hseries⟩

theorem admits_equationSeries {c v : Expr} {f : SeriesFilter}
    (hf : equationSeries qualifier c v = some f)
    (h : ∀ a b, eval m row qualifier c = .text a → eval m row qualifier v = .text b → a = b) :
    f.Admits row := by
  simp only [equationSeries, Option.bind_eq_bind, Option.bind_eq_some_iff] at hf
  obtain ⟨t, ht, hf⟩ := hf
  have hv : eval m row qualifier v = .text t := eval_stringConstant ht
  split_ifs at hf with h1 h2
  · cases hf
    exact ⟨rfl, by simpa using h _ _ (eval_isTenant h1) hv, by simp⟩
  · cases hf
    exact ⟨rfl, by simp, by simpa using h _ _ (eval_isSeries h2) hv⟩

theorem admits_extractSeries {e : Expr} (h : truth m (eval m row qualifier e) = some true) :
    (extractSeries qualifier e).Admits row := by
  induction e with
  | nested e ih => exact ih h
  | binaryOp l op r ihl ihr =>
    cases op with
    | and =>
      obtain ⟨hl, hr⟩ := truth_and3 h
      exact (ihl hl).intersection (ihr hr)
    | eq =>
      have heq : ∀ a b, eval m row qualifier l = .text a → eval m row qualifier r = .text b →
          a = b := by
        intro a b ha hb
        rw [eval, ha, hb] at h
        simpa [binary, truth] using h
      simp only [extractSeries]
      cases hf : (equationSeries qualifier l r).or (equationSeries qualifier r l) with
      | none => exact SeriesFilter.admits_default
      | some f =>
        rcases Option.or_eq_some_iff.mp hf with hf | ⟨-, hf⟩
        · exact admits_equationSeries hf heq
        · exact admits_equationSeries hf fun a b ha hb => (heq b a hb ha).symm
    | _ => exact SeriesFilter.admits_default
  | _ => exact SeriesFilter.admits_default

end

structure ScanPlan.Admits (p : ScanPlan) (row : SourceRow) : Prop where
  nonempty : p.empty = false
  start : ∀ s ∈ p.startUs, s ≤ row.timestampUs
  end_ : ∀ e ∈ p.endUs, row.timestampUs < e
  tenant : ∀ t ∈ p.tenant, row.tenant = t
  series : ∀ t ∈ p.series, row.series = t

section
variable {m} {row : SourceRow}

theorem admits_sourcePlan {source : BaseSource} (resolved : Resolved)
    (hmin : i64Min ≤ row.timestampUs) (hmax : row.timestampUs ≤ i64Max) (h : Holds m row source) :
    (sourcePlan source resolved).Admits row := by
  have hb : (if resolved.rollup then Bounds.default else
      source.selection.elim .default (extractBounds source.qualifier)).Admits row.timestampUs := by
    split
    · exact Bounds.admits_default _
    · cases hs : source.selection with
      | none => exact Bounds.admits_default _
      | some e => exact admits_extractBounds hmin hmax (h e hs)
  have hf : (source.selection.elim SeriesFilter.default
      (extractSeries source.qualifier)).Admits row := by
    cases hs : source.selection with
    | none => exact SeriesFilter.admits_default
    | some e => exact admits_extractSeries (h e hs)
  exact ⟨by simp only [sourcePlan, hb.nonempty, hf.nonempty, Bool.or_false], hb.start, hb.end_,
    hf.tenant, hf.series⟩

theorem factorSource_of_macro_form {catalog : QueryCatalog} {f : TableFactor}
    {selection : Option Expr}
    (h : knownCatalogMacro catalog f = true) : factorSource selection f = none := by
  unfold knownCatalogMacro at h
  split at h
  · simp [factorSource, plainTable]
  · cases h

theorem selectSource_metadata {catalog : QueryCatalog} {clauses : SelectClauses}
    {sources : List TableWithJoins} {selection : Option Expr} {exprs : List Expr}
    (h : (sources.isEmpty || metadataOnlySelect catalog sources) = true) :
    selectSource (.select clauses sources selection exprs) = none := by
  unfold selectSource
  split
  · rename_i heq
    cases heq
    rename_i relation
    have hm : knownCatalogMacro catalog relation = true := by simpa [metadataOnlySelect] using h
    rw [factorSource_of_macro_form hm, ite_self]
  · rfl

theorem planQuery_ok {query : SqlQuery} {names : List Text} {catalog : QueryCatalog}
    {plan : ScanPlan}
    {source : BaseSource} (h : planQuery query names catalog = some plan)
    (hs : baseSource query = some source) :
    ∃ resolved, resolveTable source.relation names catalog = some resolved ∧
      plan = sourcePlan source resolved := by
  unfold planQuery at h
  split at h
  · rename_i clauses select sources selection exprs exprs'
    split_ifs at h with hc hm hn
    · simp [baseSource, selectSource_metadata hm] at hs
    · rw [hs] at h
      simp only [Option.bind_eq_bind, Option.bind_some] at h
      split_ifs at h
      obtain ⟨resolved, hr, rfl⟩ := Option.map_eq_some_iff.mp h
      exact ⟨resolved, hr, rfl⟩
  · cases h

end

-- The selection of a snapshot

variable {F : Type}

/-- `ResidentBatch`: rows with the inclusive bounds of their timestamps. -/
structure ResidentBatch (F : Type) where
  rows : List (StoredRow F)
  minTimestampUs : Int
  maxTimestampUs : Int

def ResidentBatch.new (rows : List (StoredRow F)) : ResidentBatch F where
  rows := rows
  minTimestampUs := rows.foldl (fun low r => min low r.row.timestampUs) i64Max
  maxTimestampUs := rows.foldl (fun high r => max high r.row.timestampUs) i64Min

def ResidentBatch.overlaps (b : ResidentBatch F) (plan : Option ScanPlan) (cutoff : Option Int) :
    Bool :=
  b.minTimestampUs ≤ b.maxTimestampUs && cutoff.all (· ≤ b.maxTimestampUs) && plan.all fun p =>
    !p.rollup && !p.empty && p.startUs.all (· ≤ b.maxTimestampUs) &&
      p.endUs.all (b.minTimestampUs < ·)

def segmentSelected (plan : Option ScanPlan) (t : Table F) (seg : Segment) : Bool :=
  let shard := plan.bind fun p => p.tenant.bind fun tenant => p.series.map fun series =>
    shardFor tenant series t.config.shards
  t.cutoffUs.all (· ≤ seg.maxTimestampUs) && plan.all fun p =>
    !p.rollup && !p.empty && p.startUs.all (· ≤ seg.maxTimestampUs) &&
      p.endUs.all (seg.minTimestampUs < ·) && shard.all (seg.shard == ·)

def hotSelected (plan : Option ScanPlan) (t : Table F) (r : StoredRow F) : Bool :=
  t.cutoffUs.all (· ≤ r.row.timestampUs) && plan.all fun p =>
    !p.rollup && p.matchesSeries r.row.tenant r.row.series &&
      p.startUs.all (· ≤ r.row.timestampUs) && p.endUs.all (r.row.timestampUs < ·)

def rawSelected (plan : Option ScanPlan) : Bool := plan.all fun p => !p.rollup && !p.empty

/-- The stored rows of a table: the files its segments name, and the batches in memory. -/
structure Stored (t : Table F) where
  files : List (Engine.Written F)
  segments : t.segments = files.map Engine.Written.descriptor
  described : ∀ w ∈ files, Engine.Describes t.config w.descriptor w.rows
  hot : List (List (StoredRow F))

def Stored.rows {t : Table F} (s : Stored t) : List (StoredRow F) :=
  s.files.flatMap Engine.Written.rows ++ s.hot.flatten

/-- The rows a query is given of a table, with retained inputs or without. -/
def Stored.selected {t : Table F} (s : Stored t) (plan : Option ScanPlan) (retained : Bool) :
    List (StoredRow F) :=
  (s.files.filter fun w => segmentSelected plan t w.descriptor).flatMap Engine.Written.rows ++
    if retained then
      if rawSelected plan then
        ((s.hot.map ResidentBatch.new).filter (·.overlaps plan t.cutoffUs)).flatMap
          ResidentBatch.rows
      else []
    else s.hot.flatten.filter (hotSelected plan t)

def sourceRow (r : StoredRow F) : SourceRow := ⟨r.row.timestampUs, r.row.tenant, r.row.series⟩

section
variable {plan : ScanPlan} {t : Table F} {r : StoredRow F} {rows : List (StoredRow F)}

theorem segmentSelected_of_admits {seg : Segment}
    (hd : Engine.Describes t.config seg rows) (hr : r ∈ rows) (hraw : plan.rollup = false)
    (hc : ∀ c ∈ t.cutoffUs, c ≤ r.row.timestampUs) (h : plan.Admits (sourceRow r)) :
    segmentSelected (some plan) t seg = true := by
  have hmin := hd.min r hr
  have hmax := hd.max r hr
  have hstart : ∀ s ∈ plan.startUs, s ≤ r.row.timestampUs := h.start
  have hend : ∀ e ∈ plan.endUs, r.row.timestampUs < e := h.end_
  have hshard : ∀ tenant ∈ plan.tenant, ∀ series ∈ plan.series,
      seg.shard = shardFor tenant series t.config.shards := by
    intro tenant ht series hs
    rw [← h.tenant tenant ht, ← h.series series hs]
    exact (hd.shard hr).symm
  simp only [segmentSelected, Option.all_some, hraw, h.nonempty, Bool.not_false, Bool.true_and,
    Bool.and_eq_true, Option.all_eq_true, decide_eq_true_eq, beq_iff_eq]
  refine ⟨fun c hm => (hc c hm).trans hmax, ⟨fun s hm => (hstart s hm).trans hmax,
    fun e hm => hmin.trans_lt (hend e hm)⟩, fun shard hm => ?_⟩
  simp only [Option.bind_some, Option.bind_eq_some_iff, Option.map_eq_some_iff] at hm
  obtain ⟨tenant, ht, series, hs, rfl⟩ := hm
  exact hshard tenant ht series hs

theorem hotSelected_of_admits (hraw : plan.rollup = false)
    (hc : ∀ c ∈ t.cutoffUs, c ≤ r.row.timestampUs) (h : plan.Admits (sourceRow r)) :
    hotSelected (some plan) t r = true := by
  simp only [hotSelected, ScanPlan.matchesSeries, Option.all_some, hraw, h.nonempty, Bool.not_false,
    Bool.true_and, Bool.and_eq_true, Option.all_eq_true, decide_eq_true_eq, beq_iff_eq]
  exact ⟨hc, ⟨⟨h.tenant, h.series⟩, h.start⟩, h.end_⟩

theorem ResidentBatch.bounds_new (hr : r ∈ rows) :
    (ResidentBatch.new rows).minTimestampUs ≤ r.row.timestampUs ∧
      r.row.timestampUs ≤ (ResidentBatch.new rows).maxTimestampUs := by
  have hmin : ∀ (l : List (StoredRow F)) (low : Int),
      l.foldl (fun low r => min low r.row.timestampUs) low ≤ low ∧
        ∀ r ∈ l, l.foldl (fun low r => min low r.row.timestampUs) low ≤ r.row.timestampUs := by
    intro l
    induction l with
    | nil => simp
    | cons a l ih =>
      intro low
      obtain ⟨hlow, hmem⟩ := ih (min low a.row.timestampUs)
      exact ⟨hlow.trans (min_le_left _ _),
        List.forall_mem_cons.mpr ⟨hlow.trans (min_le_right _ _), hmem⟩⟩
  have hmax : ∀ (l : List (StoredRow F)) (high : Int),
      high ≤ l.foldl (fun high r => max high r.row.timestampUs) high ∧
        ∀ r ∈ l, r.row.timestampUs ≤ l.foldl (fun high r => max high r.row.timestampUs) high := by
    intro l
    induction l with
    | nil => simp
    | cons a l ih =>
      intro high
      obtain ⟨hhigh, hmem⟩ := ih (max high a.row.timestampUs)
      exact ⟨(le_max_left _ _).trans hhigh,
        List.forall_mem_cons.mpr ⟨(le_max_right _ _).trans hhigh, hmem⟩⟩
  exact ⟨(hmin rows i64Max).2 r hr, (hmax rows i64Min).2 r hr⟩

theorem overlaps_of_admits (hr : r ∈ rows) (hraw : plan.rollup = false)
    (hc : ∀ c ∈ t.cutoffUs, c ≤ r.row.timestampUs) (h : plan.Admits (sourceRow r)) :
    (ResidentBatch.new rows).overlaps (some plan) t.cutoffUs = true := by
  obtain ⟨hmin, hmax⟩ := ResidentBatch.bounds_new hr
  have hstart : ∀ s ∈ plan.startUs, s ≤ r.row.timestampUs := h.start
  have hend : ∀ e ∈ plan.endUs, r.row.timestampUs < e := h.end_
  simp only [ResidentBatch.overlaps, Option.all_some, hraw, h.nonempty, Bool.not_false,
    Bool.true_and, Bool.and_eq_true, Option.all_eq_true, decide_eq_true_eq]
  exact ⟨⟨hmin.trans hmax, fun c hm => (hc c hm).trans hmax⟩, fun s hm => (hstart s hm).trans hmax,
    fun e hm => hmin.trans_lt (hend e hm)⟩

theorem mem_selected {s : Stored t} (retained : Bool) (hr : r ∈ s.rows) (hraw : plan.rollup = false)
    (hc : ∀ c ∈ t.cutoffUs, c ≤ r.row.timestampUs) (h : plan.Admits (sourceRow r)) :
    r ∈ s.selected (some plan) retained := by
  rcases List.mem_append.mp hr with hr | hr
  · obtain ⟨w, hw, hr⟩ := List.mem_flatMap.mp hr
    have hsel := segmentSelected_of_admits (s.described w hw) hr hraw hc h
    exact List.mem_append_left _ (List.mem_flatMap.mpr ⟨w, List.mem_filter.mpr ⟨hw, hsel⟩, hr⟩)
  · refine List.mem_append_right _ ?_
    cases retained with
    | true =>
      obtain ⟨rows, hrows, hr⟩ := List.mem_flatten.mp hr
      have hover := overlaps_of_admits hr hraw hc h
      rw [if_pos rfl, if_pos (by simp [rawSelected, hraw, h.nonempty])]
      exact List.mem_flatMap.mpr
        ⟨_, List.mem_filter.mpr ⟨List.mem_map_of_mem hrows, hover⟩, hr⟩
    | false =>
      rw [if_neg (by simp)]
      exact List.mem_filter.mpr ⟨hr, hotSelected_of_admits hraw hc h⟩

end

/-- What the rows of a source may rely on under a plan. -/
structure PruningSound (source : BaseSource) (plan : ScanPlan) : Prop where
  /-- Whatever meaning unrecognised parts have, a row the `WHERE` is true of is within the plan. -/
  admits : ∀ (m : Meaning) (row : SourceRow), i64Min ≤ row.timestampUs →
    row.timestampUs ≤ i64Max → Holds m row source → plan.Admits row
  /-- Such a row of the table is given to the query, unless it is below the raw cutoff. -/
  kept : plan.rollup = false → ∀ {F : Type} (t : Table F) (s : Stored t) (retained : Bool)
    (m : Meaning), ∀ r ∈ s.rows, i64Min ≤ r.row.timestampUs → r.row.timestampUs ≤ i64Max →
    (∀ c ∈ t.cutoffUs, c ≤ r.row.timestampUs) → Holds m (sourceRow r) source →
    r ∈ s.selected (some plan) retained

theorem planner_sound {query : SqlQuery} {names : List Text} {catalog : QueryCatalog}
    {plan : ScanPlan} {source : BaseSource}
    (h : planWithCatalog (some [.query query]) names catalog = some plan)
    (hs : baseSource query = some source) : PruningSound source plan := by
  obtain ⟨resolved, -, rfl⟩ := planQuery_ok h hs
  exact ⟨fun m row hmin hmax hw => admits_sourcePlan resolved hmin hmax hw,
    fun hraw F t s retained m r hr hmin hmax hc hw =>
      mem_selected retained hr hraw hc (admits_sourcePlan resolved hmin hmax hw)⟩

/-- `SELECT * FROM metrics m WHERE m.timestamp_us BETWEEN -5 AND 9223372036854775807 AND tenant =
'a'`. -/
def boundedQuery : SqlQuery :=
  .mk ⟨false, false, false, false, false, false⟩
    (.select
      ⟨false, false, false, false, false, false, false, false, false, false, false, false, false,
        false⟩
      [.mk (.table ["metrics".toList] (some ⟨"m".toList, []⟩) none
        ⟨false, false, false, false, false, false, false⟩) []]
      (some (.binaryOp
        (.between (.compoundIdentifier ["m".toList, "timestamp_us".toList]) false
          (.unaryOp .minus (.value (.number "5".toList false)))
          (.value (.number "9223372036854775807".toList false)))
        .and
        (.binaryOp (.identifier "tenant".toList) .eq
          (.value (.singleQuotedString "a".toList)))))
      []) []

theorem planner_sound_bounded : ∃ source plan,
    planWithCatalog (some [.query boundedQuery]) ["metrics".toList] ⟨[], []⟩ = some plan ∧
      baseSource boundedQuery = some source ∧ plan.startUs = some (-5) ∧ plan.endUs = none ∧
      plan.tenant = some "a".toList ∧ PruningSound source plan := by
  refine ⟨_, _, rfl, rfl, by decide +kernel, by decide +kernel, by decide +kernel, ?_⟩
  have hplan : planWithCatalog (some [.query boundedQuery]) ["metrics".toList] ⟨[], []⟩ = some _ :=
    rfl
  exact planner_sound hplan rfl

end Varve.Query
