import MovieDiff.Pcode.Split
import MovieDiff.Proofs.Results

/-!
Splitting a file into blocks is a partition. The blocks follow one another without gap and
overlap, and each is a stretch without definitions or one outermost function with the lines that
bind its name. Splitting fails only at an outermost definition that declares no name.
-/
namespace MovieDiff.Pcode

open List

variable {definition line : Line} {function rest lines : List Line} {window n : Nat} {name : String}
  {pieces : List (List Line)}

/-! ### Functions -/

def opens (lines : List Line) : Nat :=
  lines.countP Line.isDefinition

def closes (lines : List Line) : Nat :=
  lines.countP Line.isClosing

/-- A function at the front of a file, with the lines after it: it starts with a definition and
stops at the first line where as many braces closed as functions opened, or else at the end. -/
structure IsFunction (function rest : List Line) : Prop where
  starts : ∃ definition body, function = definition :: body ∧ definition.isDefinition
  open_within : ∀ part more, function = part ++ more → part ≠ [] → more ≠ [] →
    closes part ≠ opens part
  ends : closes function = opens function ∨ rest = []

theorem isClosing_of_isDefinition (h : line.isDefinition) : line.isClosing = false := by
  unfold Line.isClosing
  cases hbody : line.body with
  | instruction opcode operands => rfl
  | structural mark => simp [Line.isDefinition, Line.hasOpcode, Line.opcode?, hbody] at h
  | labelOnly => rfl

theorem opens_cons (line : Line) (lines : List Line) :
    opens (line :: lines) = opens lines + if line.isDefinition then 1 else 0 :=
  countP_cons

theorem closes_cons (line : Line) (lines : List Line) :
    closes (line :: lines) = closes lines + if line.isClosing then 1 else 0 :=
  countP_cons

def nextDepth (depth : Nat) (line : Line) : Nat :=
  if line.isDefinition then depth + 1 else if line.isClosing then depth - 1 else depth

theorem closingOffset_cons (depth : Nat) (hdepth : 0 < depth) (line : Line) (rest : List Line) :
    closingOffset depth true (line :: rest) =
      if nextDepth depth line = 0 then some 0
      else (closingOffset (nextDepth depth line : Nat) true rest).map (· + 1) := by
  rw [closingOffset, nextDepth]
  split
  · simp
  · dsimp only
    rw [Bool.true_and]
    split
    · have hpred : ((depth - 1 : Nat) : Int) = (depth : Int) - 1 := by omega
      rw [← hpred]
      by_cases hzero : depth - 1 = 0
      · simp [hzero]
      · simp [hzero]
    · have hne : depth ≠ 0 := by omega
      simp [hne]

/-- The depth counts the functions that are open. -/
theorem add_opens_cons (depth : Nat) (hdepth : 0 < depth) (line : Line) (part : List Line) :
    opens (line :: part) + depth + closes part =
      opens part + nextDepth depth line + closes (line :: part) := by
  rw [opens_cons, closes_cons, nextDepth]
  cases hdefinition : line.isDefinition with
  | true =>
    rw [isClosing_of_isDefinition hdefinition]
    simp
    omega
  | false =>
    cases hclosing : line.isClosing <;> simp <;> omega

variable {depth : Nat}

/-- The lines up to the one that closes the last of the functions that are open. -/
def untilClosed (depth : Nat) : List Line → List Line
  | [] => []
  | line :: rest =>
    if nextDepth depth line = 0 then [line] else line :: untilClosed (nextDepth depth line) rest

def afterClosed (depth : Nat) : List Line → List Line
  | [] => []
  | line :: rest =>
    if nextDepth depth line = 0 then rest else afterClosed (nextDepth depth line) rest

/-- Cutting loses no line. -/
theorem untilClosed_append_afterClosed (depth : Nat) (lines : List Line) :
    untilClosed depth lines ++ afterClosed depth lines = lines := by
  induction lines generalizing depth with
  | nil => rfl
  | cons line rest ih =>
    rw [untilClosed, afterClosed]
    split
    · rfl
    · rw [cons_append, ih]

/-- The cut is where the braces close. -/
theorem length_untilClosed (hdepth : 0 < depth) (lines : List Line) :
    (untilClosed depth lines).length =
      (closingOffset depth true lines).elim lines.length (· + 1) := by
  induction lines generalizing depth with
  | nil => rfl
  | cons line rest ih =>
    rw [untilClosed, closingOffset_cons depth hdepth]
    split
    · rfl
    next hopen =>
      rw [length_cons, ih (Nat.pos_of_ne_zero hopen)]
      cases closingOffset (nextDepth depth line : Nat) true rest <;> rfl

/-- Before the closing line more functions are open than closed. -/
theorem closes_untilClosed (hdepth : 0 < depth) (lines : List Line) :
    (∀ part more, untilClosed depth lines = part ++ more → more ≠ [] →
        closes part < opens part + depth) ∧
      closes (untilClosed depth lines) ≤ opens (untilClosed depth lines) + depth ∧
      (closes (untilClosed depth lines) = opens (untilClosed depth lines) + depth ∨
        afterClosed depth lines = []) := by
  have hnil : opens [] = 0 ∧ closes [] = 0 := ⟨rfl, rfl⟩
  induction lines generalizing depth with
  | nil =>
    refine ⟨fun part more heq hmore => ?_, Nat.zero_le _, .inr rfl⟩
    exact absurd (append_eq_nil_iff.1 heq.symm).2 hmore
  | cons line rest ih =>
    have hcount := add_opens_cons depth hdepth line
    rw [untilClosed, afterClosed]
    split
    next hzero =>
      have hline := hcount []
      refine ⟨fun part more heq hmore => ?_, by omega, .inl (by omega)⟩
      obtain ⟨rfl, -⟩ | ⟨-, rfl⟩ := singleton_eq_append_iff.1 heq
      · omega
      · exact absurd rfl hmore
    next hopen =>
      obtain ⟨hwithin, hle, hend⟩ := ih (Nat.pos_of_ne_zero hopen)
      have hall := hcount (untilClosed (nextDepth depth line) rest)
      refine ⟨fun part more heq hmore => ?_, by omega, hend.imp_left (by omega)⟩
      cases part with
      | nil => omega
      | cons first part =>
        obtain ⟨rfl, hrest⟩ := List.cons.inj heq
        have hlt := hwithin part more hrest hmore
        have hpart := hcount part
        omega

theorem closingOffset_definition (h : definition.isDefinition) (rest : List Line) :
    closingOffset 0 false (definition :: rest) =
      (closingOffset (1 : Nat) true rest).map (· + 1) := by
  rw [closingOffset, if_pos h]
  rfl

/-- A function is cut off where it is closed. -/
theorem cutFunction_eq (h : definition.isDefinition) (rest : List Line) :
    cutFunction (definition :: rest) = (definition :: untilClosed 1 rest, afterClosed 1 rest) := by
  have hlength := length_untilClosed Nat.one_pos rest
  have hparts := untilClosed_append_afterClosed 1 rest
  unfold cutFunction
  rw [closingOffset_definition h]
  generalize untilClosed 1 rest = body, afterClosed 1 rest = after at hlength hparts ⊢
  cases hoffset : closingOffset (1 : Nat) true rest with
  | none =>
    rw [hoffset, Option.elim_none, ← hparts] at hlength
    obtain rfl : after = [] := by simpa using hlength
    simp [← hparts]
  | some offset =>
    rw [hoffset, Option.elim_some] at hlength
    simp [← hlength, ← hparts]

theorem counts_definition (h : definition.isDefinition) (part : List Line) :
    opens (definition :: part) = opens part + 1 ∧ closes (definition :: part) = closes part := by
  rw [opens_cons, closes_cons, h, isClosing_of_isDefinition h]
  exact ⟨rfl, rfl⟩

/-- What is cut off at a definition is a function. -/
theorem isFunction_cutFunction (h : definition.isDefinition) (rest : List Line) :
    IsFunction (cutFunction (definition :: rest)).1 (cutFunction (definition :: rest)).2 := by
  obtain ⟨hwithin, -, hend⟩ := closes_untilClosed Nat.one_pos rest
  rw [cutFunction_eq h]
  dsimp only
  refine ⟨⟨definition, _, rfl, h⟩, fun part more heq hpart hmore => ?_, hend.imp_left fun hend => ?_⟩
  · cases part with
    | nil => exact absurd rfl hpart
    | cons line part =>
      obtain ⟨rfl, hrest⟩ := List.cons.inj heq
      have hlt := hwithin part more hrest hmore
      have hcounts := counts_definition h part
      omega
  · have hcounts := counts_definition h (untilClosed 1 rest)
    omega

/-- A file starts with at most one function. -/
theorem IsFunction.unique {function' rest' : List Line} (h : IsFunction function rest)
    (h' : IsFunction function' rest') (heq : function ++ rest = function' ++ rest') :
    function = function' ∧ rest = rest' := by
  -- a shorter one could not stop before the end of the file
  have hle : ∀ {f r f' r' : List Line}, IsFunction f r → IsFunction f' r' → f ++ r = f' ++ r' →
      f'.length ≤ f.length := by
    intro f r f' r' hf hf' heq
    rcases Nat.lt_or_ge f.length f'.length with hlt | hge
    · obtain ⟨more, hmore⟩ := prefix_of_prefix_length_le (heq ▸ prefix_append f r)
        (prefix_append f' r') (Nat.le_of_lt hlt)
      have hne : more ≠ [] := by
        rintro rfl
        rw [← hmore, append_nil] at hlt
        exact Nat.lt_irrefl _ hlt
      obtain ⟨definition, body, hbody, -⟩ := hf.starts
      rcases hf.ends with hend | rfl
      · exact absurd hend (hf'.open_within f more hmore.symm (by rw [hbody]; simp) hne)
      · rw [append_nil, ← hmore, append_assoc] at heq
        have hlengths := congrArg List.length heq
        rw [length_append, length_append] at hlengths
        have hpos := length_pos_iff.2 hne
        omega
    · exact hge
  exact List.append_inj heq (Nat.le_antisymm (hle h' h heq.symm) (hle h h' heq))

/-! ### Names bound before a function -/

/-- The name that the lines at the front bind to a member: `Push` with a register and the name,
or a `Push` of the register followed by a `Push` of the name. -/
def boundName? : List Line → Option String
  | [] => none
  | line :: rest =>
    match line.memberName?, rest with
    | some name, _ => some name
    | none, next :: _ =>
      if line.isPushRegister && next.isPushString then
        next.pushed?.map fun operand => operand.value.spelling
      else none
    | none, [] => none

/-- The lines run from a binding of a name to the end, and none of them starts a later one. -/
structure IsNearestBinding (lines : List Line) (name : String) : Prop where
  binds : boundName? lines = some name
  nearest : ∀ later, later <:+ lines → later ≠ lines → boundName? later = none

variable {operand : Operand}

theorem memberName?_of_pushed? (h : line.pushed? = some operand) : line.memberName? = none := by
  unfold Line.pushed? at h
  split at h
  next found hbody =>
    unfold Line.memberName?
    rw [hbody]
    rfl
  · cases h

theorem memberName?_of_isPushRegister (h : line.isPushRegister) : line.memberName? = none := by
  unfold Line.isPushRegister at h
  cases hpushed : line.pushed? with
  | none => simp [hpushed] at h
  | some operand => exact memberName?_of_pushed? hpushed

/-- One more line at the end makes a binding only together with the line before it. -/
theorem boundName?_append_line (hmember : line.memberName? = none)
    (hpair : ∀ previous ∈ lines.getLast?, (previous.isPushRegister && line.isPushString) = false) :
    boundName? (lines ++ [line]) = boundName? lines := by
  match lines, hpair with
  | [], _ => simp [boundName?, hmember]
  | [previous], hpair =>
    have hnot := hpair previous rfl
    cases hname : previous.memberName? <;> simp [boundName?, hname, hnot]
  | first :: second :: rest, _ => cases hname : first.memberName? <;> simp [boundName?, hname]

variable {later : List Line}

theorem getLast?_of_suffix (h : later <:+ lines) :
    ∀ line ∈ later.getLast?, line ∈ lines.getLast? := by
  obtain ⟨front, rfl⟩ := h
  intro line hline
  rw [Option.mem_def] at hline ⊢
  rw [getLast?_append, hline]
  rfl

theorem IsNearestBinding.append_line (h : IsNearestBinding lines name)
    (hmember : line.memberName? = none)
    (hpair : ∀ previous ∈ lines.getLast?, (previous.isPushRegister && line.isPushString) = false) :
    IsNearestBinding (lines ++ [line]) name := by
  refine ⟨by rw [boundName?_append_line hmember hpair, h.binds], fun later hsuffix hne => ?_⟩
  rcases eq_nil_or_concat later with rfl | ⟨front, last, rfl⟩
  · rfl
  · rw [concat_eq_append] at hsuffix hne ⊢
    obtain ⟨before, hbefore⟩ := hsuffix
    rw [← append_assoc] at hbefore
    obtain ⟨hlines, hlast⟩ := append_inj' hbefore rfl
    cases hlast
    have hfront : front <:+ lines := ⟨before, hlines⟩
    have hshort : front ≠ lines := fun heq => hne (by rw [heq])
    have hpair' := fun previous hprevious =>
      hpair previous (getLast?_of_suffix hfront previous hprevious)
    rw [boundName?_append_line hmember hpair', h.nearest front hfront hshort]

theorem eq_nil_of_suffix_singleton (h : later <:+ [line]) (hne : later ≠ [line]) : later = [] := by
  rcases Nat.lt_or_ge later.length 1 with hlt | hge
  · exact length_eq_zero_iff.1 (Nat.lt_one_iff.1 hlt)
  · exact absurd (h.eq_of_length_le hge) hne

theorem isNearestBinding_member (h : line.memberName? = some name) :
    IsNearestBinding [line] name := by
  refine ⟨by simp [boundName?, h], fun later hsuffix hne => ?_⟩
  rw [eq_nil_of_suffix_singleton hsuffix hne]
  rfl

theorem isNearestBinding_pair {previous : Line} (hregister : previous.isPushRegister)
    (hpushed : line.pushed? = some operand) (hstring : operand.kind = .string) :
    IsNearestBinding [previous, line] operand.value.spelling := by
  have hline : line.isPushString := by simp [Line.isPushString, hpushed, hstring]
  have hprevious := memberName?_of_isPushRegister hregister
  refine ⟨by simp [boundName?, hprevious, hregister, hline, hpushed], fun later hsuffix hne => ?_⟩
  rcases suffix_cons_iff.1 hsuffix with heq | hsuffix
  · exact absurd heq hne
  · by_cases hlater : later = [line]
    · simp [hlater, boundName?, memberName?_of_pushed? hpushed]
    · rw [eq_nil_of_suffix_singleton hsuffix hlater]
      rfl

/-- What the search from a function backwards must find. The lines come last first. -/
def FindsBinding (window : Nat) (lines : List Line) (n : Nat) (name : String) : Prop :=
  ∃ before binding, lines.reverse = before ++ binding ∧ before.length = n ∧
    binding.length ≤ window + 1 ∧ IsNearestBinding binding name

/-- The search goes on over a line that neither binds a name nor completes a binding. -/
theorem FindsBinding.cons {earlier : List Line}
    (h : FindsBinding window earlier n name) (hmember : line.memberName? = none)
    (hpair : ∀ previous ∈ earlier.head?, (previous.isPushRegister && line.isPushString) = false) :
    FindsBinding (window + 1) (line :: earlier) n name := by
  obtain ⟨before, binding, hreverse, hlength, hshort, hbinding⟩ := h
  refine ⟨before, binding ++ [line], ?_, hlength, ?_, hbinding.append_line hmember ?_⟩
  · rw [reverse_cons, hreverse, append_assoc]
  · rw [length_append, length_singleton]
    omega
  · intro previous hprevious
    apply hpair
    have hsuffix : binding <:+ earlier.reverse := ⟨before, hreverse.symm⟩
    have hlast := getLast?_of_suffix hsuffix previous hprevious
    rwa [getLast?_reverse] at hlast

/-- The nearest binding is found. -/
theorem findsBinding_of_nameBefore (h : nameBefore window lines = some (n, name)) :
    FindsBinding window lines n name := by
  induction window generalizing lines with
  | zero => cases h
  | succ window ih =>
    cases lines with
    | nil => cases h
    | cons line earlier =>
      unfold nameBefore at h
      cases hmember : line.memberName? with
      | some found =>
        simp only [hmember, Option.some.injEq, Prod.mk.injEq] at h
        obtain ⟨rfl, rfl⟩ := h
        exact ⟨earlier.reverse, [line], by simp, length_reverse, by simp,
          isNearestBinding_member hmember⟩
      | none =>
        simp only [hmember] at h
        cases hpushed : line.pushed? with
        | none =>
          simp only [hpushed] at h
          refine (ih h).cons hmember fun previous _ => ?_
          simp [Line.isPushString, hpushed]
        | some operand =>
          cases earlier with
          | nil =>
            simp only [hpushed] at h
            exact (ih h).cons hmember fun previous hprevious => by cases hprevious
          | cons previous older =>
            simp only [hpushed] at h
            split at h
            next hpair =>
              obtain ⟨hstring, hregister⟩ := Bool.and_eq_true_iff.1 hpair
              simp only [Option.some.injEq, Prod.mk.injEq] at h
              obtain ⟨rfl, rfl⟩ := h
              exact ⟨older.reverse, [previous, line], by simp, length_reverse, by simp,
                isNearestBinding_pair hregister hpushed (beq_iff_eq.1 hstring)⟩
            next hpair =>
              refine (ih h).cons hmember ?_
              rintro other ⟨⟩
              rw [Bool.eq_false_iff]
              intro hboth
              obtain ⟨hregister, hstring⟩ := Bool.and_eq_true_iff.1 hboth
              apply hpair
              simpa [Line.isPushString, hpushed, hregister] using hstring

/-! ### The partition -/

/-- The lines in front of a function that belong to its block: none, or, if the definition
declares an empty name, those from the nearest binding of a name on. -/
def IsNamePrefix (before function : List Line) : Prop :=
  before = [] ∨ ∃ definition ∈ function.head?, declaredName definition = .ok "" ∧
    before.length ≤ nameWindow + 1 ∧ ∃ name, IsNearestBinding before name

def IsGap (lines : List Line) : Prop :=
  ∀ line ∈ lines, line.isDefinition = false

/-- An outermost function with the lines that bind its name and at most one `SetMember`;
`rest` is what follows in the file. -/
def IsFunctionBlock (lines rest : List Line) : Prop :=
  ∃ before function after, lines = before ++ function ++ after ∧
    IsGap before ∧ IsNamePrefix before function ∧ IsFunction function (after ++ rest) ∧
    (after = [] ∨ ∃ line, after = [line] ∧ line.hasOpcode "SetMember")

/-- The pieces make up the file, none is empty, and each is a gap or a function block. -/
structure IsPartition (lines : List Line) (pieces : List (List Line)) : Prop where
  flatten : pieces.flatten = lines
  nonempty : ∀ piece ∈ pieces, piece ≠ []
  kind : ∀ earlier piece later, pieces = earlier ++ piece :: later →
    IsGap piece ∨ IsFunctionBlock piece later.flatten

theorem isPartition_nil : IsPartition [] [] := by
  refine ⟨rfl, fun piece hpiece => ?_, fun earlier piece later h => ?_⟩
  · cases hpiece
  · simp at h

theorem IsPartition.cons {piece : List Line} (h : IsPartition lines pieces) (hne : piece ≠ [])
    (hkind : IsGap piece ∨ IsFunctionBlock piece lines) :
    IsPartition (piece ++ lines) (piece :: pieces) := by
  refine ⟨by rw [flatten_cons, h.flatten], fun other hother => ?_, fun earlier other later heq => ?_⟩
  · rcases mem_cons.1 hother with rfl | hother
    · exact hne
    · exact h.nonempty other hother
  · cases earlier with
    | nil =>
      obtain ⟨rfl, rfl⟩ := List.cons.inj heq
      rw [h.flatten]
      exact hkind
    | cons first earlier => exact h.kind earlier other later (List.cons.inj heq).2

theorem IsPartition.gapBlock {gap : List Line} (h : IsPartition lines pieces) (hgap : IsGap gap) :
    IsPartition (gap ++ lines) ((gapBlock gap).map Block.lines ++ pieces) := by
  cases gap with
  | nil => exact h
  | cons line gap => exact h.cons (by simp) (.inl hgap)

/-- A nameless function takes its binding along. -/
theorem isNamePrefix_bindFunction {declared : String}
    (hdeclared : declaredName definition = .ok declared) (hhead : definition ∈ function.head?)
    (pending : List Line) :
    IsNamePrefix (pending.reverse.drop (bindFunction declared pending).1) function := by
  have hnone : pending.reverse.drop pending.length = [] :=
    drop_eq_nil_of_le (Nat.le_of_eq length_reverse)
  unfold bindFunction
  split
  · exact .inl hnone
  next hempty =>
    have hname : declared = "" := String.isEmpty_iff.1 (by simpa using hempty)
    cases hbefore : nameBefore nameWindow pending with
    | none => exact .inl hnone
    | some found =>
      obtain ⟨before, binding, hreverse, hlength, hshort, hbinding⟩ :=
        findsBinding_of_nameBefore hbefore
      rw [Option.getD_some, hreverse, ← hlength, drop_left]
      exact .inr ⟨definition, hhead, by rw [hdeclared, hname], hshort, found.2, hbinding⟩

theorem cutFunctionBlock_append (lines : List Line) :
    (cutFunctionBlock lines).1 ++ (cutFunctionBlock lines).2 = lines := by
  rw [cutFunctionBlock, takeSetMember_append, cutFunction_append]

/-- The block that starts at a definition, apart from the lines before it. -/
theorem cutFunctionBlock_cases (h : definition.isDefinition) (rest : List Line) :
    ∃ function after, (cutFunctionBlock (definition :: rest)).1 = function ++ after ∧
      definition ∈ function.head? ∧
      IsFunction function (after ++ (cutFunctionBlock (definition :: rest)).2) ∧
      (after = [] ∨ ∃ line, after = [line] ∧ line.hasOpcode "SetMember") := by
  have hfunction := isFunction_cutFunction h rest
  have happend := cutFunction_append (definition :: rest)
  rcases hcut : cutFunction (definition :: rest) with ⟨function, others⟩
  rw [hcut] at hfunction happend
  have hhead : definition ∈ function.head? := by
    obtain ⟨first, body, rfl, -⟩ := hfunction.starts
    cases happend
    rfl
  unfold cutFunctionBlock
  rw [hcut]
  cases others with
  | nil => exact ⟨function, [], by simp [takeSetMember], hhead, hfunction, .inl rfl⟩
  | cons line others =>
    cases hmember : line.hasOpcode "SetMember" with
    | true =>
      refine ⟨function, [line], by simp [takeSetMember, hmember], hhead, ?_, .inr ⟨line, rfl, hmember⟩⟩
      simpa [takeSetMember, hmember] using hfunction
    | false =>
      refine ⟨function, [], by simp [takeSetMember, hmember], hhead, ?_, .inl rfl⟩
      simpa [takeSetMember, hmember] using hfunction

/-- The lines that are left, together with the pending ones, are partitioned. -/
theorem isPartition_splitFrom {pending : List Line} {blocks : List Block}
    (hpending : IsGap pending) (h : splitFrom pending lines = .ok blocks) :
    IsPartition (pending.reverse ++ lines) (blocks.map Block.lines) := by
  induction pending, lines using splitFrom.induct generalizing blocks with
  | case1 pending =>
    rw [splitFrom] at h
    cases h
    have hgap : IsGap pending.reverse := fun line hline => hpending line (mem_reverse.1 hline)
    simpa using isPartition_nil.gapBlock hgap
  | case2 pending line rest hdefinition ih =>
    rw [splitFrom, if_pos hdefinition] at h
    obtain ⟨declared, hdeclared, h⟩ := exists_of_bind_eq_ok h
    dsimp only at h
    obtain ⟨later, hlater, h⟩ := exists_of_bind_eq_ok h
    simp only [pure, Except.pure, Except.ok.injEq] at h
    subst h
    have hrest := ih (fun _ hline => by cases hline) hlater
    obtain ⟨function, after, hblock, hhead, hfunction, hafter⟩ :=
      cutFunctionBlock_cases hdefinition rest
    have hprefix := isNamePrefix_bindFunction hdeclared hhead pending
    have hgap : IsGap pending.reverse := fun other hother =>
      hpending other (mem_reverse.1 hother)
    -- the pending lines are cut where the name of the function is bound
    generalize (bindFunction declared pending).1 = gap at hprefix ⊢
    have hbefore : IsGap (pending.reverse.drop gap) := fun other hother =>
      hgap other (mem_of_mem_drop hother)
    have hpiece : IsFunctionBlock (pending.reverse.drop gap ++ (cutFunctionBlock (line :: rest)).1)
        (cutFunctionBlock (line :: rest)).2 :=
      ⟨_, function, after, by rw [hblock, append_assoc], hbefore, hprefix, hfunction, hafter⟩
    have hne : pending.reverse.drop gap ++ (cutFunctionBlock (line :: rest)).1 ≠ [] := by
      obtain ⟨first, body, rfl, -⟩ := hfunction.starts
      simp [hblock]
    have hall := (hrest.cons hne (.inr hpiece)).gapBlock (fun other hother =>
      hgap other (mem_of_mem_take (i := gap) hother))
    have hlines : pending.reverse ++ line :: rest = pending.reverse.take gap ++
        (pending.reverse.drop gap ++ (cutFunctionBlock (line :: rest)).1 ++
          (cutFunctionBlock (line :: rest)).2) := by
      rw [append_assoc, cutFunctionBlock_append, ← append_assoc,
        take_append_drop]
    rw [hlines]
    simpa using hall
  | case3 pending line rest hdefinition ih =>
    rw [splitFrom, if_neg hdefinition] at h
    have hpending' : IsGap (line :: pending) := by
      intro other hother
      rcases mem_cons.1 hother with rfl | hother
      · exact Bool.eq_false_iff.2 hdefinition
      · exact hpending other hother
    have hrest := ih hpending' h
    rwa [reverse_cons, append_assoc] at hrest

theorem map_lines_numberBlocks (seen : List String) (blocks : List Block) :
    (numberBlocks seen blocks).map Block.lines = blocks.map Block.lines := by
  induction blocks generalizing seen with
  | nil => rfl
  | cons block blocks ih => simp only [numberBlocks, map_cons, ih]

/-! ### Failure -/

/-- A definition that is not inside an earlier function. -/
inductive IsOuterDefinition (definition : Line) : List Line → Prop where
  | here {rest : List Line} : definition.isDefinition → IsOuterDefinition definition (definition :: rest)
  | pass {line : Line} {rest : List Line} : line.isDefinition = false →
      IsOuterDefinition definition rest → IsOuterDefinition definition (line :: rest)
  | beyond {function rest : List Line} : IsFunction function rest →
      IsOuterDefinition definition rest → IsOuterDefinition definition (function ++ rest)

/-- A definition needs a name in quotes. -/
theorem declaredName_eq_error_iff :
    (∃ fault, declaredName definition = .error fault) ↔
      ∀ operand ∈ definition.operands.head?, operand.kind ≠ .string := by
  unfold declaredName
  cases definition.operands with
  | nil => simp
  | cons operand operands =>
    by_cases hkind : operand.kind = .string <;> simp [hkind]

theorem isDefinition_of_setMember (h : line.hasOpcode "SetMember") : line.isDefinition = false := by
  have hopcode : line.opcode? = some "SetMember" := beq_iff_eq.1 h
  unfold Line.isDefinition Line.hasOpcode
  rw [hopcode]
  decide

theorem not_isOuterDefinition_nil (definition : Line) : ¬ IsOuterDefinition definition [] := by
  intro h
  generalize heq : ([] : List Line) = lines at h
  cases h with
  | here => cases heq
  | pass => cases heq
  | beyond hfunction =>
    obtain ⟨first, body, rfl, -⟩ := hfunction.starts
    cases heq

theorem isOuterDefinition_cons (hnot : line.isDefinition = false) :
    IsOuterDefinition definition (line :: rest) ↔ IsOuterDefinition definition rest := by
  constructor
  · intro h
    generalize heq : line :: rest = lines at h
    cases h with
    | here hdefinition =>
      cases heq
      rw [hdefinition] at hnot
      cases hnot
    | pass _ hrest =>
      cases heq
      exact hrest
    | beyond hfunction _ =>
      obtain ⟨first, body, rfl, hfirst⟩ := hfunction.starts
      cases heq
      rw [hfirst] at hnot
      cases hnot
  · exact .pass hnot

/-- Definitions inside a function are not outer. -/
theorem isOuterDefinition_append (hfunction : IsFunction function rest) :
    IsOuterDefinition definition (function ++ rest) ↔
      definition ∈ function.head? ∨ IsOuterDefinition definition rest := by
  obtain ⟨first, body, hbody, hfirst⟩ := hfunction.starts
  constructor
  · intro h
    generalize heq : function ++ rest = lines at h
    cases h with
    | here hdefinition =>
      rw [hbody] at heq
      cases heq
      exact .inl (by rw [hbody]; rfl)
    | pass hnot hrest =>
      rw [hbody] at heq
      cases heq
      rw [hfirst] at hnot
      cases hnot
    | beyond hother hrest =>
      obtain ⟨-, rfl⟩ := hfunction.unique hother heq
      exact .inr hrest
  · rintro (hhead | hrest)
    · rw [hbody] at hhead ⊢
      cases hhead
      exact .here hfirst
    · exact .beyond hfunction hrest

/-- After a function the scan goes on behind its `SetMember`. -/
theorem isOuterDefinition_after {after : List Line}
    (hafter : after = [] ∨ ∃ line, after = [line] ∧ line.hasOpcode "SetMember") :
    IsOuterDefinition definition (after ++ rest) ↔ IsOuterDefinition definition rest := by
  rcases hafter with rfl | ⟨line, rfl, hline⟩
  · rfl
  · exact isOuterDefinition_cons (isDefinition_of_setMember hline)

/-- Splitting fails when some outermost definition has no name in it, and only then. -/
theorem splitFrom_eq_error_iff (pending lines : List Line) :
    (∃ fault, splitFrom pending lines = .error fault) ↔
      ∃ definition, IsOuterDefinition definition lines ∧
        ∃ fault, declaredName definition = .error fault := by
  induction pending, lines using splitFrom.induct with
  | case1 pending => simp [splitFrom, not_isOuterDefinition_nil]
  | case2 pending line rest hdefinition ih =>
    obtain ⟨function, after, hblock, hhead, hfunction, hafter⟩ :=
      cutFunctionBlock_cases hdefinition rest
    have hlines : line :: rest = function ++ (after ++ (cutFunctionBlock (line :: rest)).2) := by
      rw [← append_assoc, ← hblock, cutFunctionBlock_append]
    have houter : ∀ definition, IsOuterDefinition definition (line :: rest) ↔
        definition = line ∨ IsOuterDefinition definition (cutFunctionBlock (line :: rest)).2 := by
      intro definition
      rw [hlines, isOuterDefinition_append hfunction, isOuterDefinition_after hafter, ← hlines,
        hhead, Option.mem_some, eq_comm]
    have hsplit : (∃ fault, splitFrom pending (line :: rest) = .error fault) ↔
        (∃ fault, declaredName line = .error fault) ∨
          ∃ fault, splitFrom [] (cutFunctionBlock (line :: rest)).2 = .error fault := by
      rw [splitFrom, if_pos hdefinition]
      cases declaredName line with
      | error fault => simp [bind, Except.bind]
      | ok declared =>
        cases hlater : splitFrom [] (cutFunctionBlock (line :: rest)).2 with
        | error fault => simp [bind, Except.bind, hlater]
        | ok later => simp [bind, Except.bind, pure, Except.pure, hlater]
    dsimp only at ih
    rw [hsplit, ih]
    simp only [houter, or_and_right, exists_or, exists_eq_left]
  | case3 pending line rest hdefinition ih =>
    rw [splitFrom, if_neg hdefinition, ih]
    simp only [isOuterDefinition_cons (Bool.eq_false_iff.2 hdefinition)]

/-- The blocks of a file partition it, and splitting fails exactly when an outermost definition
has no first operand or one that is no string. -/
theorem splitBlocks_isPartition (lines : List Line) :
    (∀ blocks, splitBlocks lines = .ok blocks → IsPartition lines (blocks.map Block.lines)) ∧
      ((∃ fault, splitBlocks lines = .error fault) ↔
        ∃ definition, IsOuterDefinition definition lines ∧
          ∀ operand ∈ definition.operands.head?, operand.kind ≠ .string) := by
  unfold splitBlocks
  simp only [← declaredName_eq_error_iff, ← splitFrom_eq_error_iff [] lines]
  cases hsplit : splitFrom [] lines with
  | error fault => simp [bind, Except.bind]
  | ok blocks =>
    have hpartition := isPartition_splitFrom (fun _ hline => by cases hline) hsplit
    simpa [bind, Except.bind, pure, Except.pure, map_lines_numberBlocks] using hpartition

/-- A nameless function that holds another one, between lines of its own. -/
def memberFunctionFile : List Line :=
  [⟨[0], none, .instruction "Pop" []⟩,
    ⟨[1], none, .instruction "Push" [.ofSymbol "register1"]⟩,
    ⟨[2], none, .instruction "Push" [.ofString "run"]⟩,
    ⟨[3], none, .instruction "DefineFunction" [.ofString "", .ofNumeral "0"]⟩,
    ⟨[4], none, .instruction "DefineFunction" [.ofString "inner", .ofNumeral "0"]⟩,
    ⟨[5], none, .structural "\x7d"⟩,
    ⟨[6], none, .structural "\x7d"⟩,
    ⟨[7], none, .instruction "SetMember" []⟩,
    ⟨[8], none, .instruction "Pop" []⟩]

theorem memberFunctionFile_isPartition :
    splitBlocks memberFunctionFile = .ok [⟨"__toplevel", memberFunctionFile.take 1⟩,
        ⟨"run", (memberFunctionFile.drop 1).take 7⟩, ⟨"__toplevel_2", memberFunctionFile.drop 8⟩] ∧
      IsPartition memberFunctionFile [memberFunctionFile.take 1, (memberFunctionFile.drop 1).take 7,
        memberFunctionFile.drop 8] := by
  have hblocks : (splitBlocks memberFunctionFile).toOption =
      some [⟨"__toplevel", memberFunctionFile.take 1⟩,
        ⟨"run", (memberFunctionFile.drop 1).take 7⟩, ⟨"__toplevel_2", memberFunctionFile.drop 8⟩] := by
    decide +kernel
  have hsplit : splitBlocks memberFunctionFile = .ok [⟨"__toplevel", memberFunctionFile.take 1⟩,
      ⟨"run", (memberFunctionFile.drop 1).take 7⟩,
      ⟨"__toplevel_2", memberFunctionFile.drop 8⟩] := eq_ok_of_toOption hblocks
  exact ⟨hsplit, (splitBlocks_isPartition memberFunctionFile).1 _ hsplit⟩

end MovieDiff.Pcode
