/-
**What the command line says.**

* `readArgs_written` — pairs of an option and a value are read one after another.
* `value_setAll` — an option has the value that it is given last, or its default.
* `readArgs_cases` — the arguments are such pairs to their end, or up to the first that is refused.
* `begins_reads` — when `main` comes to its pipelines, what it brings, and why it does not.
-/

import OrderBook.Properties.ParseSymbols
import OrderBook.Source.CommandLine

namespace Ob.LiveTrade

variable {beyond : List Char → Int32} {c : CommandLine} {good : List Char → Bool}

/-! ### Options and values -/

/-- Options with their values, as arguments. -/
def written (given : List (Setting × List Char)) : List (List Char) :=
  given.flatMap fun pair => [pair.1.name, pair.2]

/-- The options set one after another. -/
def CommandLine.setAll (beyond : List Char → Int32) (c : CommandLine)
    (given : List (Setting × List Char)) : CommandLine :=
  given.foldl (fun c pair => c.set beyond pair.1 pair.2) c

theorem settingOf_name (setting : Setting) : settingOf setting.name = some setting := by
  cases setting <;> decide

theorem settingOf_some {a : List Char} {setting : Setting} (found : settingOf a = some setting) :
    a = setting.name := by
  have same := List.find?_some found
  exact (of_decide_eq_true same).symm

theorem settingOf_none {a : List Char} (none : settingOf a = none) (setting : Setting) :
    setting.name ≠ a := by
  rintro rfl
  rw [settingOf_name] at none
  cases none

theorem readArgs_set (setting : Setting) (v : List Char) (args : List (List Char)) :
    readArgs beyond (setting.name :: v :: args) c =
      readArgs beyond args (c.set beyond setting v) := by
  rw [readArgs.eq_def]
  simp only [settingOf_name]

theorem readArgs_written (given : List (Setting × List Char)) (rest : List (List Char)) :
    readArgs beyond (written given ++ rest) c = readArgs beyond rest (c.setAll beyond given) := by
  induction given generalizing c with
  | nil => rfl
  | cons pair given ih => exact (readArgs_set pair.1 pair.2 _).trans ih

/-! ### The last value counts -/

/-- What an option is set to. -/
inductive Value
  | text (s : List Char)
  | int (n : Int32)
  | unsigned (n : UInt32)
  | number (x : Float.Model)

def Setting.read (beyond : List Char → Int32) (setting : Setting) (v : List Char) : Value :=
  match setting with
  | .source | .feed | .market | .symbol | .log => .text v
  | .pollMs | .seconds | .serve => .int (atoi beyond v)
  | .seed => .unsigned (atoi beyond v).toUInt32
  | .startPrice | .sigma | .drift | .maxPos | .maxNotional | .maxDrawdown => .number (atof v)

def CommandLine.value (c : CommandLine) : Setting → Value
  | .source => .text c.source
  | .feed => .text c.feedKind
  | .market => .text c.market
  | .symbol => .text c.symbol
  | .pollMs => .int c.pollMs
  | .seconds => .int c.runSeconds
  | .seed => .unsigned c.seed
  | .startPrice => .number c.startPrice
  | .sigma => .number c.sigma
  | .drift => .number c.drift
  | .maxPos => .number c.maxPosBtc
  | .maxNotional => .number c.maxNotional
  | .maxDrawdown => .number c.maxDrawdown
  | .log => .text c.logPath
  | .serve => .int c.servePort

theorem value_set (setting other : Setting) (v : List Char) :
    (c.set beyond setting v).value other =
      if setting = other then setting.read beyond v else c.value other := by
  cases setting <;> cases other <;> rfl

/-- The value that an option is given last. -/
def lastOf (given : List (Setting × List Char)) (setting : Setting) : Option (List Char) :=
  (given.reverse.find? (·.1 = setting)).map Prod.snd

theorem value_setAll (given : List (Setting × List Char)) (setting : Setting) :
    (c.setAll beyond given).value setting =
      ((lastOf given setting).map (setting.read beyond)).getD (c.value setting) := by
  induction given using List.reverseRecOn with
  | nil => rfl
  | append_singleton given pair ih =>
    have last : c.setAll beyond (given ++ [pair]) =
        (c.setAll beyond given).set beyond pair.1 pair.2 := List.foldl_concat ..
    rw [last, value_set, ih, lastOf, lastOf, List.reverse_concat, List.find?_cons]
    by_cases here : pair.1 = setting
    · rw [if_pos here, decide_eq_true here, here]
      rfl
    · rw [if_neg here, decide_eq_false here]

/-! ### Where reading stops -/

/-- The arguments begin with something that is no option with a value. -/
inductive Stops : List (List Char) → Ended → Prop
  | missing (setting : Setting) : Stops [setting.name] (.missing setting.name)
  | help {a : List Char} (args : List (List Char)) (asks : a = "-h".toList ∨ a = "--help".toList) :
    Stops (a :: args) .help
  | unknown {a : List Char} (args : List (List Char)) (none : ∀ setting : Setting, setting.name ≠ a)
    (other : ¬(a = "-h".toList ∨ a = "--help".toList)) : Stops (a :: args) (.unknownArg a)

theorem settingOf_unset {a : List Char} (unset : ∀ setting : Setting, setting.name ≠ a) :
    settingOf a = none := by
  cases found : settingOf a with
  | none => rfl
  | some setting => exact absurd (settingOf_some found).symm (unset setting)

/-- No option is called like the help. -/
theorem name_ne_help (setting : Setting) {a : List Char}
    (asks : a = "-h".toList ∨ a = "--help".toList) : setting.name ≠ a := by
  rcases asks with rfl | rfl <;> cases setting <;> decide

theorem Stops.refused {args : List (List Char)} {e : Ended} (stops : Stops args e) :
    readArgs beyond args c = .error e := by
  rw [readArgs.eq_def]
  cases stops with
  | missing setting => simp only [settingOf_name]
  | help args asks =>
    simp only [settingOf_unset fun setting => name_ne_help setting asks]
    exact if_pos asks
  | unknown args none other =>
    simp only [settingOf_unset none]
    exact if_neg other

/-- **All arguments are read, or all up to one that is refused.** -/
theorem readArgs_cases : ∀ args : List (List Char),
    (∃ given, args = written given) ∨
      ∃ given rest e, args = written given ++ rest ∧ Stops rest e
  | [] => .inl ⟨[], rfl⟩
  | [a] => by
    right
    cases found : settingOf a with
    | some setting =>
      rw [settingOf_some found]
      exact ⟨[], _, _, rfl, .missing setting⟩
    | none =>
      by_cases asks : a = "-h".toList ∨ a = "--help".toList
      · exact ⟨[], _, _, rfl, .help [] asks⟩
      · exact ⟨[], _, _, rfl, .unknown [] (settingOf_none found) asks⟩
  | a :: v :: args => by
    cases found : settingOf a with
    | some setting =>
      rw [settingOf_some found]
      rcases readArgs_cases args with ⟨given, rfl⟩ | ⟨given, rest, e, rfl, stops⟩
      · exact .inl ⟨(setting, v) :: given, rfl⟩
      · exact .inr ⟨(setting, v) :: given, rest, e, rfl, stops⟩
    | none =>
      by_cases asks : a = "-h".toList ∨ a = "--help".toList
      · exact .inr ⟨[], _, _, rfl, .help _ asks⟩
      · exact .inr ⟨[], _, _, rfl, .unknown _ (settingOf_none found) asks⟩

/-! ### When there are symbols -/

theorem trim_ne_nil {piece : List Char} :
    Pieces.trim isBlank piece ≠ [] ↔ ∃ x ∈ piece, isBlank x = false := by
  rcases Pieces.blank_or_padded isBlank piece with
    blank | ⟨left, core, right, rfl, bare, before, after⟩
  · rw [Pieces.trim_blank blank]
    refine ⟨fun some_ => absurd rfl some_, fun ⟨x, here, solid⟩ => ?_⟩
    rw [blank x here] at solid
    cases solid
  · rw [Pieces.trim_padded bare before after]
    refine ⟨fun _ => ?_, fun _ => bare.nonempty⟩
    obtain ⟨x, core', rfl⟩ := List.exists_cons_of_ne_nil bare.nonempty
    exact ⟨x, by simp, bare.head x rfl⟩

/-- There are symbols if there is anything but commas and blanks. -/
theorem symbolsOf_ne_nil (csv : List Char) :
    symbolsOf csv ≠ [] ↔ ∃ x ∈ csv, x ≠ ',' ∧ isBlank x = false := by
  have piece : ∀ piece : List Char, [Pieces.trim isBlank piece].filter (· ≠ []) ≠ [] ↔
      ∃ x ∈ piece, isBlank x = false := by
    intro piece
    rw [← trim_ne_nil]
    by_cases empty : Pieces.trim isBlank piece = [] <;> simp [empty]
  cases first : csv.findIdx? (· = ',') with
  | none =>
    rw [symbolsOf_last first, piece]
    have no_comma := List.findIdx?_eq_none_iff.mp first
    refine exists_congr fun x => and_congr_right fun here => ?_
    exact (and_iff_right (of_decide_eq_false (no_comma x here))).symm
  | some i =>
    obtain ⟨lt, here, before⟩ := List.findIdx?_eq_some_iff_getElem.mp first
    have split : csv = csv.take i ++ ',' :: csv.drop (i + 1) := by
      conv_lhs => rw [← List.take_append_drop i csv, List.drop_eq_getElem_cons lt]
      rw [of_decide_eq_true here]
    have later := symbolsOf_ne_nil (csv.drop (i + 1))
    rw [symbolsOf_first first, Ne, List.append_eq_nil_iff, not_and_or, ← Ne, ← Ne, piece, later]
    constructor
    · rintro (⟨x, inside, solid⟩ | ⟨x, inside, solid⟩)
      · obtain ⟨j, small, rfl⟩ := List.getElem_of_mem inside
        have other := before j (by rw [List.length_take] at small; omega)
        rw [List.getElem_take] at solid
        exact ⟨_, List.getElem_mem _, of_decide_eq_false (Bool.not_eq_true _ ▸ other), solid⟩
      · exact ⟨x, List.mem_of_mem_drop inside, solid⟩
    · rintro ⟨x, inside, other, solid⟩
      rw [split, List.mem_append, List.mem_cons] at inside
      rcases inside with inside | comma | inside
      · exact .inl ⟨x, inside, solid⟩
      · exact absurd comma other
      · exact .inr ⟨x, inside, other, solid⟩
termination_by csv.length
decreasing_by
  rw [List.length_drop]
  omega

/-! ### Up to the pipelines -/

/-- A source that there is, if it is live with a market and a feed that there are. -/
def CommandLine.Known (c : CommandLine) : Prop :=
  c.source = "synthetic".toList ∨ c.source = "binance".toList ∧
    (c.market = "futures".toList ∨ c.market = "spot".toList) ∧
    (c.feedKind = "ws".toList ∨ c.feedKind = "rest".toList)

/-- What the program can go on with. -/
structure Fit (good : List Char → Bool) (c : CommandLine) : Prop where
  source : c.Known
  symbol : ∃ x ∈ c.symbol, x ≠ ',' ∧ isBlank x = false
  log : c.logPath = [] ∨ good c.logPath

theorem bm_cases (c : CommandLine) :
    (∃ market, c.bm = .ok market) ∧ (c.market = "futures".toList ∨ c.market = "spot".toList) ∨
      c.bm = .error (.unknownMarket c.market) ∧
        ¬(c.market = "futures".toList ∨ c.market = "spot".toList) := by
  unfold CommandLine.bm
  by_cases futures : c.market = "futures".toList
  · rw [if_pos futures]
    exact .inl ⟨⟨_, rfl⟩, .inl futures⟩
  · rw [if_neg futures]
    by_cases spot : c.market = "spot".toList
    · rw [if_pos spot]
      exact .inl ⟨⟨_, rfl⟩, .inr spot⟩
    · rw [if_neg spot]
      exact .inr ⟨rfl, not_or.mpr ⟨futures, spot⟩⟩

theorem binanceMarket_cases (c : CommandLine) :
    (∃ market, c.binanceMarket = .ok market) ∧ c.Known ∨
      (∃ e, c.binanceMarket = .error e ∧ e.code = some 1) ∧ ¬c.Known := by
  unfold CommandLine.binanceMarket CommandLine.Known
  by_cases binance : c.source = "binance".toList
  · have other : c.source ≠ "synthetic".toList := by
      rw [binance]
      decide
    rw [if_pos binance, or_iff_right other, and_iff_right binance]
    rcases bm_cases c with ⟨⟨market, is⟩, known⟩ | ⟨is, unknown⟩
    · rw [is, and_iff_right known]
      by_cases feed : c.feedKind ≠ "ws".toList ∧ c.feedKind ≠ "rest".toList
      · exact .inr ⟨⟨_, if_pos feed, rfl⟩, not_or.mpr feed⟩
      · exact .inl ⟨⟨market, if_neg feed⟩, by rwa [← not_or, not_not] at feed⟩
    · rw [is]
      exact .inr ⟨⟨_, rfl, rfl⟩, fun both => unknown both.1⟩
  · rw [if_neg binance]
    by_cases synthetic : c.source = "synthetic".toList
    · exact .inl ⟨⟨_, if_neg (not_not.mpr synthetic)⟩, .inl synthetic⟩
    · exact .inr ⟨⟨_, if_pos synthetic, rfl⟩, not_or.mpr ⟨synthetic, mt And.left binance⟩⟩

theorem sinks_cases (good : List Char → Bool) (c : CommandLine) :
    (∃ count, c.sinks good = .ok count ∧ (count = 0 ↔ c.logPath = [] ∧ c.servePort ≤ 0)) ∧
        (c.logPath = [] ∨ good c.logPath) ∨
      (∃ e, c.sinks good = .error e ∧ e.code = some 1) ∧ ¬(c.logPath = [] ∨ good c.logPath) := by
  unfold CommandLine.sinks
  have serves : ¬c.servePort > 0 ↔ c.servePort ≤ 0 := Int32.not_lt
  by_cases bad : c.logPath ≠ [] ∧ good c.logPath = false
  · rw [if_pos bad]
    exact .inr ⟨⟨_, rfl, rfl⟩, not_or.mpr ⟨bad.1, ne_true_of_eq_false bad.2⟩⟩
  · rw [if_neg bad]
    refine .inl ⟨⟨_, rfl, ?_⟩, ?_⟩
    · by_cases log : c.logPath = [] <;> by_cases serve : c.servePort > 0 <;>
        simp [log, serve, ← serves]
    · rwa [not_and_or, not_not, Bool.not_eq_false] at bad

/-- `main` behind its arguments. -/
theorem begins_of_read {on : Platform} {args : List (List Char)}
    (read : readArgs beyond args {} = .ok c) :
    begins beyond on good args = c.binanceMarket >>= fun market =>
      if symbolsOf c.symbol = [] then .error (.noSymbols c.symbol)
      else c.sinks good >>= fun sinkCount =>
        .ok (c.begun on (symbolsOf c.symbol) sinkCount market) := by
  have parsed : parseSymbols c.symbol = some (symbolsOf c.symbol) :=
    parseFrom_eq c.symbol 0 [] (Nat.zero_le _)
  rw [begins, read]
  show (c.binanceMarket >>= _) = _
  refine bind_congr fun market => ?_
  rw [parsed]
  rfl

/-- What the pipelines are made of, told by what the options were set to. -/
structure Brings (on : Platform) (c : CommandLine) (b : Begun) : Prop where
  symbols : b.options.symbols = symbolsOf c.symbol
  some_symbols : b.options.symbols ≠ []
  source : b.options.source = c.source
  feedKind : b.options.feedKind = c.feedKind
  kind : b.options.kind = .webSocket ↔ c.source = "binance".toList ∧ c.feedKind = "ws".toList
  quiet : b.sinkCount = 0 ↔ c.logPath = [] ∧ c.servePort ≤ 0
  unlimited : b.options.risk = none ↔
    toQty on c.maxPosBtc = 0 ∧ toPrice on c.maxNotional = 0 ∧ toPrice on c.maxDrawdown = 0

theorem riskOn_eq_false (rcfg : Word.RiskConfig) : riskOn rcfg = false ↔
    rcfg.maxPositionQty = 0 ∧ rcfg.maxNotional = 0 ∧ rcfg.maxDrawdown = 0 := by
  rw [riskOn, decide_eq_false_iff_not, not_not, Int64.or_eq_zero_iff, Int64.or_eq_zero_iff,
    and_assoc]

theorem begun_brings {on : Platform} {sinkCount : Nat} (market : BinanceMarket)
    (some_symbols : symbolsOf c.symbol ≠ [])
    (quiet : sinkCount = 0 ↔ c.logPath = [] ∧ c.servePort ≤ 0) :
    Brings on c (c.begun on (symbolsOf c.symbol) sinkCount market) where
  symbols := rfl
  some_symbols := some_symbols
  source := rfl
  feedKind := rfl
  kind := by
    show c.feedKindOf = .webSocket ↔ _
    unfold CommandLine.feedKindOf
    split
    · rename_i live
      exact ⟨fun _ => live, fun _ => rfl⟩
    · rename_i other
      exact ⟨fun same => (by cases same), fun live => absurd live other⟩
  quiet := quiet
  unlimited := by
    have word : (toQty on c.maxPosBtc).toInt64 = 0 ↔ toQty on c.maxPosBtc = 0 :=
      ⟨fun same => congrArg Int64.toUInt64 same, fun same => congrArg UInt64.toInt64 same⟩
    have off := riskOn_eq_false (c.riskConfig on)
    rw [← word]
    refine Iff.trans ?_ off
    show (if riskOn (c.riskConfig on) then _ else none) = none ↔ _
    cases riskOn (c.riskConfig on) with
    | false => exact ⟨fun _ => rfl, fun _ => rfl⟩
    | true => exact ⟨fun same => (by cases same), fun same => (by cases same)⟩

theorem begins_cases {on : Platform} {args : List (List Char)}
    (read : readArgs beyond args {} = .ok c) :
    (∃ b, begins beyond on good args = .ok b ∧ Brings on c b) ∧ Fit good c ∨
      (∃ e, begins beyond on good args = .error e ∧ e.code = some 1) ∧ ¬Fit good c := by
  rw [begins_of_read read]
  rcases binanceMarket_cases c with ⟨⟨market, is⟩, source⟩ | ⟨⟨e, is, code⟩, unfit⟩
  · rw [is]
    by_cases none : symbolsOf c.symbol = []
    · refine .inr ⟨⟨_, if_pos none, rfl⟩, fun fit => ?_⟩
      exact (symbolsOf_ne_nil c.symbol).mpr fit.symbol none
    · have run : (Except.ok market >>= fun market =>
          if symbolsOf c.symbol = [] then .error (.noSymbols c.symbol)
          else c.sinks good >>= fun sinkCount =>
            .ok (c.begun on (symbolsOf c.symbol) sinkCount market)) =
          c.sinks good >>= fun sinkCount =>
            .ok (c.begun on (symbolsOf c.symbol) sinkCount market) := if_neg none
      rw [run]
      rcases sinks_cases good c with ⟨⟨count, is, quiet⟩, log⟩ | ⟨⟨e, is, code⟩, unfit⟩
      · rw [is]
        exact .inl ⟨⟨_, rfl, begun_brings market none quiet⟩,
          ⟨source, (symbolsOf_ne_nil c.symbol).mp none, log⟩⟩
      · rw [is]
        exact .inr ⟨⟨e, rfl, code⟩, fun fit => unfit fit.log⟩
  · rw [is]
    exact .inr ⟨⟨e, rfl, code⟩, fun fit => unfit fit.source⟩

/-- An end with exit code 1 is one that says why. -/
theorem Ended.code_one_iff (e : Ended) : e.code = some 1 ↔ e.message ≠ [] := by
  cases e with
  | help | outOfRange => exact ⟨fun one => (by cases one), fun some_ => absurd rfl some_⟩
  | _ =>
    exact iff_of_true rfl (List.append_ne_nil_of_left_ne_nil
      (List.append_ne_nil_of_left_ne_nil (by decide) _) _)

theorem Stops.code {args : List (List Char)} {e : Ended} (stops : Stops args e) :
    e = .help ∨ e.code = some 1 := by
  cases stops with
  | missing setting => exact .inr rfl
  | help args asks => exact .inl rfl
  | unknown args none other => exact .inr rfl

/-- **What the command line says.** Arguments that are options with values are read to their end,
and each option has the value it is given last, or its default; the program comes to its pipelines
if they fit. Other arguments are refused at the first that is no option with a value. If the program
ends here it was asked for help, or its exit code is 1 and it says why. -/
theorem begins_reads (beyond : List Char → Int32) (on : Platform) (good : List Char → Bool)
    (args : List (List Char)) :
    (∀ given, args = written given →
      (∀ setting, (CommandLine.setAll beyond {} given).value setting =
        ((lastOf given setting).map (setting.read beyond)).getD (CommandLine.value {} setting)) ∧
      ((∃ b, begins beyond on good args = .ok b ∧ Brings on (CommandLine.setAll beyond {} given) b) ∧
          Fit good (CommandLine.setAll beyond {} given) ∨
        (∃ e, begins beyond on good args = .error e ∧ e.code = some 1 ∧ e.message ≠ []) ∧
          ¬Fit good (CommandLine.setAll beyond {} given))) ∧
    (∀ given rest e, args = written given ++ rest → Stops rest e →
      begins beyond on good args = .error e ∧ (e = .help ∨ e.code = some 1 ∧ e.message ≠ [])) ∧
    ((∃ given, args = written given) ∨
      ∃ given rest e, args = written given ++ rest ∧ Stops rest e) := by
  have tells : ∀ e : Ended, e.code = some 1 → e.code = some 1 ∧ e.message ≠ [] := fun e code =>
    ⟨code, e.code_one_iff.mp code⟩
  refine ⟨?_, ?_, readArgs_cases args⟩
  · rintro given rfl
    have read : readArgs beyond (written given) {} = .ok (CommandLine.setAll beyond {} given) := by
      rw [← List.append_nil (written given), readArgs_written]
      rfl
    refine ⟨value_setAll given, (begins_cases read).imp_right ?_⟩
    rintro ⟨⟨e, is, code⟩, unfit⟩
    exact ⟨⟨e, is, tells e code⟩, unfit⟩
  · rintro given rest e rfl stops
    have refused : readArgs beyond (written given ++ rest) {} = .error e := by
      rw [readArgs_written, stops.refused]
    rw [begins, refused]
    exact ⟨rfl, stops.code.imp_right (tells e)⟩

end Ob.LiveTrade
