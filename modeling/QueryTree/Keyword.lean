import QueryTree.Text

/-!
# Keywords

The vocabulary of the query language. Clause words are never names. The other
keywords are names as well, unless a neighbour pairs with them, as `PRIMARY`
pairs with `KEY`. A word is compared with a keyword without regard to case.
-/

namespace QueryTree

/-- The words of the vocabulary. -/
inductive Keyword where
  | ADD | ALLOW | ALTER | AND | APPLY | AS | ASC | BATCH | BEGIN | BY | CONTAINS | CREATE | DELETE
  | DESC | DISTINCT | DROP | EXISTS | FILTERING | FROM | GRANT | IF | IN | INDEX | INSERT | INTO
  | JSON | KEY | KEYSPACE | LIMIT | NOT | ON | OR | ORDER | PARTITION | PER | PRIMARY | REVOKE
  | SELECT | SET | TABLE | TIMESTAMP | TO | TRUNCATE | TTL | TYPE | UNLOGGED | UPDATE | USE
  | USING | VALUES | WHERE | WITH
deriving DecidableEq, Repr

namespace Keyword

/-- The whole vocabulary. -/
def all : List Keyword :=
  [ADD, ALLOW, ALTER, AND, APPLY, AS, ASC, BATCH, BEGIN, BY, CONTAINS, CREATE, DELETE,
   DESC, DISTINCT, DROP, EXISTS, FILTERING, FROM, GRANT, IF, IN, INDEX, INSERT, INTO,
   JSON, KEY, KEYSPACE, LIMIT, NOT, ON, OR, ORDER, PARTITION, PER, PRIMARY, REVOKE,
   SELECT, SET, TABLE, TIMESTAMP, TO, TRUNCATE, TTL, TYPE, UNLOGGED, UPDATE, USE,
   USING, VALUES, WHERE, WITH]

theorem mem_all (k : Keyword) : k ∈ all := by
  cases k <;> decide

/-- The upper-case spelling. -/
def spelling : Keyword → Text
  | ADD => "ADD".toList
  | ALLOW => "ALLOW".toList
  | ALTER => "ALTER".toList
  | AND => "AND".toList
  | APPLY => "APPLY".toList
  | AS => "AS".toList
  | ASC => "ASC".toList
  | BATCH => "BATCH".toList
  | BEGIN => "BEGIN".toList
  | BY => "BY".toList
  | CONTAINS => "CONTAINS".toList
  | CREATE => "CREATE".toList
  | DELETE => "DELETE".toList
  | DESC => "DESC".toList
  | DISTINCT => "DISTINCT".toList
  | DROP => "DROP".toList
  | EXISTS => "EXISTS".toList
  | FILTERING => "FILTERING".toList
  | FROM => "FROM".toList
  | GRANT => "GRANT".toList
  | IF => "IF".toList
  | IN => "IN".toList
  | INDEX => "INDEX".toList
  | INSERT => "INSERT".toList
  | INTO => "INTO".toList
  | JSON => "JSON".toList
  | KEY => "KEY".toList
  | KEYSPACE => "KEYSPACE".toList
  | LIMIT => "LIMIT".toList
  | NOT => "NOT".toList
  | ON => "ON".toList
  | OR => "OR".toList
  | ORDER => "ORDER".toList
  | PARTITION => "PARTITION".toList
  | PER => "PER".toList
  | PRIMARY => "PRIMARY".toList
  | REVOKE => "REVOKE".toList
  | SELECT => "SELECT".toList
  | SET => "SET".toList
  | TABLE => "TABLE".toList
  | TIMESTAMP => "TIMESTAMP".toList
  | TO => "TO".toList
  | TRUNCATE => "TRUNCATE".toList
  | TTL => "TTL".toList
  | TYPE => "TYPE".toList
  | UNLOGGED => "UNLOGGED".toList
  | UPDATE => "UPDATE".toList
  | USE => "USE".toList
  | USING => "USING".toList
  | VALUES => "VALUES".toList
  | WHERE => "WHERE".toList
  | WITH => "WITH".toList

/-- The keyword that a word spells, in any case. -/
def ofText? (word : Text) : Option Keyword :=
  all.find? fun k => k.spelling == Text.upper word

theorem ofText?_spelling (k : Keyword) : ofText? k.spelling = some k := by
  cases k <;> decide

theorem upper_eq_of_ofText? {word : Text} {k : Keyword} (h : ofText? word = some k) :
    Text.upper word = k.spelling := by
  have := List.find?_some h
  simpa using (beq_iff_eq.mp this).symm

theorem upper_spelling (k : Keyword) : Text.upper k.spelling = k.spelling :=
  upper_eq_of_ofText? (ofText?_spelling k)

/-- Words that agree up to case spell the same keyword. -/
theorem ofText?_congr {s t : Text} (h : Text.upper s = Text.upper t) :
    ofText? s = ofText? t := by
  simp [ofText?, h]

/-- The keywords that may also name a column. The others start or join a clause. -/
def isNameLike : Keyword → Bool
  | AS | ASC | CONTAINS | DESC | DISTINCT | EXISTS | FILTERING | INDEX | JSON | KEY
  | KEYSPACE | PARTITION | PER | TIMESTAMP | TO | TTL | TYPE => true
  | _ => false

/-- The keywords that start or join a clause. -/
def isClause (k : Keyword) : Bool :=
  !k.isNameLike

/-- Whether two keywords in a row belong together. -/
def pairs : Keyword → Keyword → Bool
  | ALLOW, FILTERING => true
  | ALTER, KEYSPACE | ALTER, TYPE => true
  | AND, TIMESTAMP | AND, TTL => true
  | CREATE, INDEX | CREATE, KEYSPACE | CREATE, TYPE => true
  | DROP, INDEX | DROP, KEYSPACE | DROP, TYPE => true
  | IF, EXISTS => true
  | NOT, EXISTS => true
  | PER, PARTITION => true
  | PRIMARY, KEY => true
  | SELECT, DISTINCT | SELECT, JSON => true
  | USING, TIMESTAMP | USING, TTL => true
  | _, _ => false

/-- The keywords directly before the name of a table. -/
def opensTable : Keyword → Bool
  | INTO | FROM | UPDATE | TABLE | TRUNCATE => true
  | _ => false

/-- The keywords whose names refer to columns. -/
def opensColumns : Keyword → Bool
  | SELECT | SET | BY | DELETE => true
  | _ => false

end Keyword

/-- Whether a word belongs to the vocabulary. -/
def isReservedWord (word : Text) : Bool :=
  (Keyword.ofText? word).isSome

/-- Whether a word is a keyword that is never a name. -/
def isClauseWord (word : Text) : Bool :=
  (Keyword.ofText? word).any Keyword.isClause

end QueryTree
