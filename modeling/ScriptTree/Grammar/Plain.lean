import ScriptTree.Grammar.Basic

/-! The grammar of the plain dialect. -/
namespace ScriptTree.Grammar

/-- The kinds of the plain dialect in the order of their numbers. -/
def plainKinds : List Kind := List.flatten
  [Kind.tokens ["end"],
   Kind.nodes ["identifier", "hash_bang_line"],
   Kind.tokens ["export", "*", "default", "as", "\x7b", ",", "\x7d", "import", "from", "with",
     "var", "let", "const", "using", "await", "of", "else", "if", "switch", "for", "(", ";", ")",
     "in", "while", "do", "try", "break", "continue", "debugger", "return", "throw", ":", "case",
     "catch", "finally", "yield", "=", "[", "]"],
   Kind.nodes ["html_character_reference"],
   Kind.tokens ["<", ">"],
   Kind.nodes ["identifier"],
   Kind.tokens [".", "</", "/>", "\x22", "\x27"],
   Kind.nodes ["string_fragment", "string_fragment"],
   Kind.tokens ["class", "extends", "async", "function", "=>"],
   Kind.nodes ["optional_chain"],
   Kind.tokens ["new", "+=", "-=", "*=", "/=", "%=", "^=", "&=", "|=", ">>=", ">>>=", "<<=", "**=",
     "&&=", "||=", "??=", "...", "&&", "||", ">>", ">>>", "<<", "&", "^", "|", "+", "-", "/", "%",
     "**", "<=", "==", "===", "!=", "!==", ">=", "??", "instanceof", "!", "~", "typeof", "void",
     "delete", "++", "--"],
   Kind.nodes ["string_fragment", "string_fragment", "escape_sequence", "comment"],
   Kind.tokens ["\x60", "$\x7b", "/"],
   Kind.nodes ["regex_pattern", "regex_flags", "number", "private_property_identifier"],
   Kind.tokens ["target", "meta"],
   Kind.nodes ["this", "super", "true", "false", "null", "undefined"],
   Kind.tokens ["@", "static", "static get", "get", "set", "_automatic_semicolon"],
   Kind.nodes ["string_fragment"],
   Kind.tokens ["?"],
   Kind.nodes ["html_comment", "jsx_text", "program", "export_statement", "namespace_export",
     "export_clause", "export_specifier"],
   Kind.tokens ["_module_export_name", "declaration"],
   Kind.nodes ["import", "import_statement", "import_clause"],
   Kind.tokens ["_from_clause"],
   Kind.nodes ["namespace_import", "named_imports", "import_specifier", "import_attribute"],
   Kind.tokens ["statement"],
   Kind.nodes ["expression_statement", "variable_declaration", "lexical_declaration",
     "using_declaration", "variable_declarator", "statement_block", "else_clause", "if_statement",
     "switch_statement", "for_statement", "for_in_statement"],
   Kind.tokens ["_for_header"],
   Kind.nodes ["while_statement", "do_statement", "try_statement", "with_statement",
     "break_statement", "continue_statement", "debugger_statement", "return_statement",
     "throw_statement", "empty_statement", "labeled_statement", "switch_body", "switch_case",
     "switch_default", "catch_clause", "finally_clause", "parenthesized_expression"],
   Kind.tokens ["expression", "primary_expression"],
   Kind.nodes ["yield_expression", "object", "object_pattern", "assignment_pattern",
     "object_assignment_pattern", "array", "array_pattern", "jsx_element", "jsx_expression",
     "jsx_opening_element", "member_expression", "jsx_namespace_name", "jsx_closing_element",
     "jsx_self_closing_element", "jsx_attribute", "string", "class", "class_declaration",
     "class_heritage", "function_expression", "function_declaration", "generator_function",
     "generator_function_declaration", "arrow_function", "call_expression", "new_expression",
     "await_expression", "member_expression", "subscript_expression", "assignment_expression"],
   Kind.tokens ["_augmented_assignment_lhs"],
   Kind.nodes ["augmented_assignment_expression"],
   Kind.tokens ["_initializer", "_destructuring_pattern"],
   Kind.nodes ["spread_element", "ternary_expression", "binary_expression", "unary_expression",
     "update_expression", "sequence_expression", "string", "template_string",
     "template_substitution", "regex", "meta_property", "arguments", "decorator",
     "member_expression", "call_expression", "class_body", "field_definition", "formal_parameters",
     "class_static_block"],
   Kind.tokens ["pattern"],
   Kind.nodes ["rest_pattern", "method_definition", "pair", "pair_pattern"],
   Kind.tokens ["_property_name"],
   Kind.nodes ["computed_property_name"],
   Kind.tokens ["program_repeat1", "export_statement_repeat1", "export_clause_repeat1",
     "named_imports_repeat1", "variable_declaration_repeat1", "switch_body_repeat1",
     "object_repeat1", "object_pattern_repeat1", "array_repeat1", "array_pattern_repeat1",
     "jsx_element_repeat1", "jsx_opening_element_repeat1", "_jsx_string_repeat1",
     "_jsx_string_repeat2", "sequence_expression_repeat1", "string_repeat1", "string_repeat2",
     "template_string_repeat1", "class_body_repeat1", "formal_parameters_repeat1"],
   Kind.nodes ["property_identifier", "shorthand_property_identifier",
     "shorthand_property_identifier_pattern", "statement_identifier"]]

def plain : Grammar := ofKinds plainKinds

end ScriptTree.Grammar
