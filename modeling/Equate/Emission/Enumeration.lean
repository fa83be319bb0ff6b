import Equate.Emission.Layout
import Equate.Enumeration.Table
/-!
# Generated enumeration code

The section for a table: look-ups by value and by name over tables that are built once, at run
time, from the declared constants.
-/

namespace Equate

namespace Emission

def lookups (type qualified : Bytes) : Bytes :=
  line [utf8 "    static const std::vector<const ", type,
    utf8 "*>& get_all() \x7b return tables().all; \x7d"] ++
  line [] ++
  line [utf8 "    static const ", type, utf8 "& from_value(std::int64_t value)"] ++
  line [utf8 "    \x7b"] ++
  line [utf8 "        if (const ", type, utf8 "* c = try_from_value(value)) return *c;"] ++
  line [utf8 "        throw ::eqgen::lookup_error(\"no ", qualified,
    utf8 " constant with value \" + std::to_string(value));"] ++
  line [utf8 "    \x7d"] ++
  line [] ++
  line [utf8 "    static const ", type, utf8 "& from_name(std::string_view name)"] ++
  line [utf8 "    \x7b"] ++
  line [utf8 "        if (const ", type, utf8 "* c = try_from_name(name)) return *c;"] ++
  line [utf8 "        throw ::eqgen::lookup_error(\"no ", qualified,
    utf8 " constant named '\" + std::string(name) + \"'\");"] ++
  line [utf8 "    \x7d"] ++
  line [] ++
  line [utf8 "    static const ", type, utf8 "* try_from_value(std::int64_t value)"] ++
  line [utf8 "    \x7b"] ++
  line [utf8 "        auto it = tables().by_value.find(value);"] ++
  line [utf8 "        return it == tables().by_value.end() ? nullptr : it->second;"] ++
  line [utf8 "    \x7d"] ++
  line [] ++
  line [utf8 "    static const ", type, utf8 "* try_from_name(std::string_view name)"] ++
  line [utf8 "    \x7b"] ++
  line [utf8 "        auto it = tables().by_name.find(std::string(name));"] ++
  line [utf8 "        return it == tables().by_name.end() ? nullptr : it->second;"] ++
  line [utf8 "    \x7d"] ++
  line []

/-- The declaration of the tables. -/
def tableSet (type : Bytes) : Bytes :=
  line [utf8 "private:"] ++
  line [utf8 "    struct table_set"] ++
  line [utf8 "    \x7b"] ++
  line [utf8 "        std::vector<const ", type, utf8 "*> all;"] ++
  line [utf8 "        std::unordered_map<std::int64_t, const ", type, utf8 "*> by_value;"] ++
  line [utf8 "        std::unordered_map<std::string, const ", type, utf8 "*> by_name;"] ++
  line [utf8 "    \x7d;"] ++
  line []

/-- The loop over the constants; without constants there is none. -/
def constantLoop (type qualified : Bytes) (constants : List Bytes) : Bytes :=
  if constants.isEmpty then []
  else
    line [utf8 "            for (const ", type, utf8 "* c : \x7b",
      Bytes.join ", " (constants.map fun c => utf8 "&" ++ type ++ utf8 "::" ++ c),
      utf8 "\x7d) \x7b"] ++
    line [utf8 "                if (!s.by_value.emplace(",
      utf8 "static_cast<std::int64_t>(c->Value), c).second)"] ++
    line [utf8 "                    throw std::logic_error(\"duplicate value in enumeration ",
      qualified, utf8 "\");"] ++
    line [utf8 "                if (!s.by_name.emplace(std::string(c->Name), c).second)"] ++
    line [utf8 "                    throw std::logic_error(\"duplicate name in enumeration ",
      qualified, utf8 "\");"] ++
    line [utf8 "                s.all.push_back(c);"] ++
    line [utf8 "            \x7d"]

/-- The function that builds the tables. -/
def tableBuilder (type qualified : Bytes) (constants : List Bytes) : Bytes :=
  line [utf8 "    // Built once; keys are re-checked here because constants may be computed."] ++
  line [utf8 "    static const table_set& tables()"] ++
  line [utf8 "    \x7b"] ++
  line [utf8 "        static const table_set built = [] \x7b"] ++
  line [utf8 "            table_set s;"] ++
  constantLoop type qualified constants ++
  line [utf8 "            return s;"] ++
  line [utf8 "        \x7d();"] ++
  line [utf8 "        return built;"] ++
  line [utf8 "    \x7d"]

end Emission

/-- The generated section of a table. -/
def LookupTable.code (t : LookupTable) : Bytes :=
  let qualified := Emission.spelledName t.ns t.typeName
  Ascii.newline :: Emission.line [utf8 "// ---- ", qualified, utf8 " (enumeration) ----"] ++
  Emission.line [utf8 "// Constants in declaration order:",
    if t.constants.isEmpty then utf8 " (none)" else t.constants.flatMap fun c => utf8 " " ++ c] ++
  Emission.openNamespace t.ns ++
  Emission.line [utf8 "struct ", t.typeName, utf8 "Enumeration"] ++
  Emission.line [utf8 "\x7b"] ++
  Emission.lookups t.typeName qualified ++ Emission.tableSet t.typeName ++
  Emission.tableBuilder t.typeName qualified t.constants ++
  Emission.line [utf8 "\x7d;"] ++ Emission.line [] ++ Emission.closeNamespace t.ns

end Equate
