import Equate.Bytes
/-!
# Layout of generated code

The lines that every generated file starts with, and what sections have in common: namespaces,
literals and qualified names.
-/

namespace Equate.Emission

/-- A line of code. -/
def line (parts : List Bytes) : Bytes := parts.flatten ++ [Ascii.newline]

/-- A namespace with `::` where it is written with a dot. -/
def spelledNamespace (ns : Bytes) : Bytes :=
  ns.flatMap fun b => if b = Ascii.dot then utf8 "::" else [b]

/-- A name behind its namespace, as code spells both. -/
def spelledName (ns name : Bytes) : Bytes :=
  if ns.isEmpty then name else spelledNamespace ns ++ utf8 "::" ++ name

/-- A 64-bit literal. -/
def wordLiteral (w : UInt64) : Bytes := utf8 "0x" ++ Bytes.hex 16 w.toNat ++ utf8 "ull"

def boolLiteral (b : Bool) : Bytes := if b then utf8 "true" else utf8 "false"

/-- Opens a namespace; the global one needs no opening. -/
def openNamespace (ns : Bytes) : Bytes :=
  if ns.isEmpty then [] else utf8 "namespace " ++ spelledNamespace ns ++ utf8 " \x7b\n\n"

/-- Closes a namespace. -/
def closeNamespace (ns : Bytes) : Bytes :=
  if ns.isEmpty then [] else utf8 "\x7d // namespace " ++ spelledNamespace ns ++ utf8 "\n"

/-- What stands above all sections. -/
def prelude : Bytes :=
  [utf8 "// Generated by eqgenc. Do not edit.", utf8 "#pragma once", utf8 "#include <cstddef>",
    utf8 "#include <cstdint>", utf8 "#include <functional>", utf8 "#include <stdexcept>",
    utf8 "#include <string>", utf8 "#include <string_view>", utf8 "#include <typeinfo>",
    utf8 "#include <unordered_map>", utf8 "#include <vector>",
    utf8 "#include \"eqgen/runtime/equality.hpp\"",
    utf8 "#include \"eqgen/runtime/hooks.hpp\""].flatMap fun text => line [text]

end Equate.Emission
